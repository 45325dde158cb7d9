import HashBox.Vault.Proof.Manifests

/-!
# Garbage collection as a whole

* `collection_converges`: an interrupted sweep followed by a full one ends where the full one alone
  does, and a sweep after a full one removes nothing.
* `collection_exact`: on the disk that calls leave, a full sweep later than every time on it keeps
  the records and files of chunks that active manifests list, and no others.
-/

namespace HashBox.Vault

variable {blake3 : Bytes → Hash} {d d' : Disk} {olderThan : Time} {active : List Hash} {h : Hash}

/-! ## Interrupted sweeps -/

theorem Disk.expired_congr (hm : d'.manifests = d.manifests) :
    d'.expired olderThan h ↔ d.expired olderThan h := by
  simp only [Disk.expired, hm]

theorem Disk.collectable_congr (hm : d'.manifests = d.manifests)
    (hr : d'.chunks.lookup h = d.chunks.lookup h) :
    d'.collectable olderThan active h ↔ d.collectable olderThan active h := by
  simp only [Disk.collectable, Disk.tombstoned, Disk.referenced_congr hm, Disk.expired_congr hm, hm,
    hr]

theorem Disk.orphaned_congr (hm : d'.manifests = d.manifests)
    (hr : d'.chunks.lookup h = d.chunks.lookup h) (hf : d'.files.lookup h = d.files.lookup h) :
    d'.orphaned olderThan active h ↔ d.orphaned olderThan active h := by
  simp only [Disk.orphaned, Disk.referenced_congr hm, Disk.expired_congr hm, hr, hf]

/-- The same manifests, chunk records and chunk files. -/
structure Disk.SameObjects (d d' : Disk) : Prop where
  manifests : d'.manifests = d.manifests
  record : ∀ h, d'.chunks.lookup h = d.chunks.lookup h
  file : ∀ h, d'.files.lookup h = d.files.lookup h

/-- `d'` is `d` less all that a sweep is to take. -/
structure Disk.Collected (olderThan : Time) (d d' : Disk) : Prop where
  swept : d.Swept (d.collectable olderThan []) (d.orphaned olderThan []) d'
  gone : ∀ h, d.collectable olderThan [] h → d'.Without h
  goneFile : ∀ h, d.orphaned olderThan [] h → d'.files.lookup h = none

theorem collectGarbage_collected {env : SweepEnv}
    (hok : (collectGarbage env olderThan ∅ d).2.1 = []) :
    d.Collected olderThan (collectGarbage env olderThan ∅ d).2.2 :=
  ⟨collectGarbage_swept env olderThan ∅ d, (collectGarbage_done hok).1, (collectGarbage_done hok).2⟩

/-- A chunk that is not to be collected keeps its record, and its file unless that is an orphan. -/
theorem Disk.Swept.kept
    (hs : d.Swept (d.collectable olderThan active) (d.orphaned olderThan active) d')
    (hc : ¬ d.collectable olderThan active h) :
    d'.chunks.lookup h = d.chunks.lookup h ∧
      (¬ d.orphaned olderThan active h → d'.files.lookup h = d.files.lookup h) :=
  ⟨(hs.record h).resolve_right fun hg => hc hg.1,
    fun ho => (hs.file h).resolve_right fun hg => hg.1.elim hc ho⟩

/-- **What is left of a sweep is swept to the same end.** -/
theorem Disk.Collected.resume {d1 d2 : Disk} (h0 : d.Collected olderThan d')
    (hs : d.Swept (d.collectable olderThan []) (d.orphaned olderThan []) d1)
    (h2 : d1.Collected olderThan d2) : d'.SameObjects d2 := by
  have key : ∀ h, d2.chunks.lookup h = d'.chunks.lookup h ∧
      d2.files.lookup h = d'.files.lookup h := by
    intro h
    by_cases hc : d.collectable olderThan [] h
    · -- its record is there for the second sweep, or it is gone with its file
      have hgone : d2.Without h := by
        rcases hs.record h with heq | ⟨-, hr, hf⟩
        · exact h2.gone h ((Disk.collectable_congr hs.manifests heq).2 hc)
        · exact h2.swept.without ⟨hr, hf⟩
      obtain ⟨hr, hf⟩ := h0.gone h hc
      exact ⟨hgone.1.trans hr.symm, hgone.2.trans hf.symm⟩
    · obtain ⟨hr1, hf1⟩ := hs.kept hc
      have hc1 : ¬ d1.collectable olderThan [] h :=
        fun hc1 => hc ((Disk.collectable_congr hs.manifests hr1).1 hc1)
      obtain ⟨hr2, hf2⟩ := h2.swept.kept hc1
      obtain ⟨hr0, hf0⟩ := h0.swept.kept hc
      refine ⟨(hr2.trans hr1).trans hr0.symm, ?_⟩
      by_cases ho : d.orphaned olderThan [] h
      · rw [h0.goneFile h ho]
        rcases hs.file h with heq | ⟨-, hf⟩
        · exact h2.goneFile h ((Disk.orphaned_congr hs.manifests hr1 heq).2 ho)
        · exact h2.swept.fileless hf
      · have ho1 : ¬ d1.orphaned olderThan [] h :=
          fun ho1 => ho ((Disk.orphaned_congr hs.manifests hr1 (hf1 ho)).1 ho1)
        rw [hf2 ho1, hf1 ho, hf0 ho]
  exact ⟨by rw [h2.swept.manifests, hs.manifests, h0.swept.manifests],
    fun h => (key h).1, fun h => (key h).2⟩

theorem Disk.Collected.settled (h0 : d.Collected olderThan d') (h : Hash) :
    ¬ d'.collectable olderThan [] h ∧ ¬ d'.orphaned olderThan [] h := by
  constructor
  · intro hc
    obtain ⟨-, -, -, r, hr, -⟩ := id hc
    rcases h0.swept.record h with heq | ⟨-, hn, -⟩
    · have hgone := h0.gone h ((Disk.collectable_congr h0.swept.manifests heq).1 hc)
      cases hr.symm.trans hgone.1
    · cases hr.symm.trans hn
  · intro ho
    obtain ⟨-, -, -, -, f, hf, -⟩ := id ho
    have hfile : d'.files.lookup h = d.files.lookup h := by
      rcases h0.swept.file h with heq | ⟨-, hn⟩
      · exact heq
      · cases hf.symm.trans hn
    rcases h0.swept.record h with heq | ⟨-, -, hn⟩
    · have hgone := h0.goneFile h ((Disk.orphaned_congr h0.swept.manifests heq hfile).1 ho)
      cases hf.symm.trans hgone
    · cases hf.symm.trans hn

/-- **Collection is crash-convergent.** A sweep interrupted at any point and then a full one with
the same `olderThan` leave what one full sweep leaves; a sweep after that one removes nothing. -/
theorem collection_converges {interrupted later alone : SweepEnv}
    (hlater : (collectGarbage later olderThan ∅
      (collectGarbage interrupted olderThan ∅ d).2.2).2.1 = [])
    (halone : (collectGarbage alone olderThan ∅ d).2.1 = []) :
    (collectGarbage alone olderThan ∅ d).2.2.SameObjects
      (collectGarbage later olderThan ∅ (collectGarbage interrupted olderThan ∅ d).2.2).2.2 ∧
    ∀ again : SweepEnv, (collectGarbage alone olderThan ∅ d).2.2.SameObjects
      (collectGarbage again olderThan ∅ (collectGarbage alone olderThan ∅ d).2.2).2.2 := by
  have h0 := collectGarbage_collected halone
  refine ⟨h0.resume (collectGarbage_swept interrupted olderThan ∅ d)
    (collectGarbage_collected hlater), fun again => ?_⟩
  have hs := collectGarbage_swept again olderThan ∅ (collectGarbage alone olderThan ∅ d).2.2
  exact ⟨hs.manifests, fun h => (hs.kept (h0.settled h).1).1,
    fun h => (hs.kept (h0.settled h).1).2 (h0.settled h).2⟩

/-- The sweep is cancelled once it has removed the file of the chunk. -/
def SweepEnv.cancelledAfterFile (h : Hash) : SweepEnv :=
  { SweepEnv.calm with
    fault := fun op =>
      if op = .start ∨ op = .scan ∨ op = .walk ∨ op = .record h ∨ op = .removeFile h then none
      else some (.other "context canceled") }

/-- The interrupted sweep has removed one file and left its record and the other chunk. -/
theorem collection_converges_sample :
    let d := Call.runAll sampleHash retiredTwice
    let half := (collectGarbage (.cancelledAfterFile (sampleHash [7])) 9 ∅ d).2.2
    let d' := (collectGarbage .calm 9 ∅ half).2.2
    d.present (sampleHash [7]) ∧ d.present (sampleHash [8]) ∧
      half.hasRecord (sampleHash [7]) ∧ ¬ half.hasFile (sampleHash [7]) ∧
      half.present (sampleHash [8]) ∧
      (collectGarbage .calm 9 ∅ d).2.2.SameObjects d' ∧
      ¬ d'.hasRecord (sampleHash [7]) ∧ ¬ d'.hasRecord (sampleHash [8]) :=
  ⟨by decide, by decide, by decide, by decide, by decide,
    (collection_converges (by decide) (by decide)).1, by decide, by decide⟩

/-! ## Exactness -/

/-- `olderThan` is later than every creation, retirement and modification time on the disk. -/
structure Disk.Before (olderThan : Time) (d : Disk) : Prop where
  record : ∀ h r, d.chunks.lookup h = some r → r.createdAt < olderThan
  manifest : ∀ id m t, d.manifests.lookup id = some m → m.retiredAt = some t → t < olderThan
  file : ∀ h f, d.files.lookup h = some f → f.modTime < olderThan

theorem Disk.Before.expired (hb : d.Before olderThan) (hd : d.Consistent) (h : Hash) :
    d.expired olderThan h := by
  intro id m hm hr _
  obtain ⟨t, ht⟩ := Option.isSome_iff_exists.1 ((hd.manifest id m hm).tombstone.1 hr)
  rw [ht]
  exact hb.manifest id m t hm ht

/-- Every record of an unreferenced chunk is collectable: one that no manifest lists is counted for
none. -/
theorem Disk.Before.collectable_iff (hb : d.Before olderThan) (hd : d.Consistent) :
    d.collectable olderThan [] h ↔ ¬ d.referenced h ∧ d.hasRecord h := by
  constructor
  · rintro ⟨href, -, -, r, hr, -⟩
    exact ⟨href, by rw [Disk.hasRecord, hr]; rfl⟩
  · rintro ⟨href, hr⟩
    obtain ⟨r, hr⟩ := Option.isSome_iff_exists.1 hr
    refine ⟨href, List.not_mem_nil, hb.expired hd h, r, hr, ?_⟩
    have hrec := hd.record h r hr
    by_cases hc : r.manifestRefCount = 0
    · exact .inr ⟨hc, hrec.created, hb.record h r hr⟩
    · obtain ⟨id, m, hm, hh⟩ := hrec.listed hc
      cases hret : m.retired with
      | false => exact absurd ⟨id, m, hm, hret, hh⟩ href
      | true => exact .inl ⟨id, m, hm, hret, hh⟩

theorem Disk.Before.orphaned_iff (hb : d.Before olderThan) (hd : d.Consistent) :
    d.orphaned olderThan [] h ↔ ¬ d.referenced h ∧ ¬ d.hasRecord h ∧ d.hasFile h := by
  rw [Disk.hasRecord, Option.not_isSome_iff_eq_none]
  constructor
  · rintro ⟨href, -, -, hr, f, hf, -⟩
    exact ⟨href, hr, by rw [Disk.hasFile, hf]; rfl⟩
  · rintro ⟨href, hr, hf⟩
    obtain ⟨f, hf⟩ := Option.isSome_iff_exists.1 hf
    exact ⟨href, List.not_mem_nil, hb.expired hd h, hr, f, hf, hb.file h f hf⟩

/-- **Collection is exact.** On the disk that calls leave, a sweep later than every time on it that
returns no error leaves the records and files of the chunks that active manifests list, and no
others. -/
theorem collection_exact {cs : List Call} (hcs : ∀ c ∈ cs, c.timed) {env : SweepEnv}
    (hb : (Call.runAll blake3 cs).Before olderThan)
    (hok : (collectGarbage env olderThan ∅ (Call.runAll blake3 cs)).2.1 = []) :
    (∀ h r, (collectGarbage env olderThan ∅ (Call.runAll blake3 cs)).2.2.chunks.lookup h = some r ↔
      (Call.runAll blake3 cs).chunks.lookup h = some r ∧ (Call.runAll blake3 cs).referenced h) ∧
    ∀ h f, (collectGarbage env olderThan ∅ (Call.runAll blake3 cs)).2.2.files.lookup h = some f ↔
      (Call.runAll blake3 cs).files.lookup h = some f ∧ (Call.runAll blake3 cs).referenced h := by
  have hd : (Call.runAll blake3 cs).Consistent := .runAll hcs
  have h0 := collectGarbage_collected hok
  generalize Call.runAll blake3 cs = d at hd hb h0 ⊢
  generalize (collectGarbage env olderThan ∅ d).2.2 = d' at h0 ⊢
  refine ⟨fun h r => ?_, fun h f => ?_⟩
  · by_cases hc : d.collectable olderThan [] h
    · rw [(h0.gone h hc).1]
      exact ⟨fun hr => (by cases hr), fun hr => absurd hr.2 hc.1⟩
    · rw [(h0.swept.kept hc).1]
      refine ⟨fun hr => ⟨hr, ?_⟩, fun hr => hr.1⟩
      by_contra href
      exact hc ((hb.collectable_iff hd).2 ⟨href, by rw [Disk.hasRecord, hr]; rfl⟩)
  · by_cases hc : d.collectable olderThan [] h
    · rw [(h0.gone h hc).2]
      exact ⟨fun hf => (by cases hf), fun hf => absurd hf.2 hc.1⟩
    · by_cases ho : d.orphaned olderThan [] h
      · rw [h0.goneFile h ho]
        exact ⟨fun hf => (by cases hf), fun hf => absurd hf.2 ho.1⟩
      · rw [(h0.swept.kept hc).2 ho]
        refine ⟨fun hf => ⟨hf, ?_⟩, fun hf => hf.1⟩
        by_contra href
        refine ho ((hb.orphaned_iff hd).2 ⟨href, fun hr => ?_, by rw [Disk.hasFile, hf]; rfl⟩)
        exact hc ((hb.collectable_iff hd).2 ⟨href, hr⟩)

/-- A retired object, and one that shares a chunk with it. -/
def halfRetired : List Call :=
  retiredTwice ++ [.processUpload (sampleConfig 1) (.calm 2 8) "b.bin" [7]]

theorem halfRetired_timed : ∀ c ∈ halfRetired, c.timed := by
  intro c hc
  simp only [halfRetired, retiredTwice, List.mem_append, List.mem_cons, List.not_mem_nil,
    or_false] at hc
  rcases hc with (rfl | rfl | rfl) | rfl
  · exact fun _ => (by decide : (5 : Nat) ≠ 0)
  · exact (by decide : (6 : Nat) ≠ 0)
  · exact (by decide : (7 : Nat) ≠ 0)
  · exact fun _ => (by decide : (8 : Nat) ≠ 0)

theorem halfRetired_before : (Call.runAll sampleHash halfRetired).Before 9 := by
  have records : ∀ e ∈ Dict.toList (Call.runAll sampleHash halfRetired).chunks,
      e.2.createdAt < 9 := by decide
  have manifests : ∀ e ∈ Dict.toList (Call.runAll sampleHash halfRetired).manifests,
      e.2.retiredAt.all (· < 9) = true := by decide
  have files : ∀ e ∈ Dict.toList (Call.runAll sampleHash halfRetired).files,
      e.2.modTime < 9 := by decide
  refine ⟨fun h r hr => records (h, r) (Dict.mem_toList.2 hr), fun id m t hm ht => ?_,
    fun h f hf => files (h, f) (Dict.mem_toList.2 hf)⟩
  have hall := manifests (id, m) (Dict.mem_toList.2 hm)
  rw [ht] at hall
  exact of_decide_eq_true hall

theorem collection_exact_sample : ∃ r f,
    (Call.runAll sampleHash halfRetired).chunks.lookup (sampleHash [8]) = some r ∧
    (Call.runAll sampleHash halfRetired).files.lookup (sampleHash [7]) = some f ∧
    (collectGarbage .calm 9 ∅ (Call.runAll sampleHash halfRetired)).2.2.chunks.lookup
      (sampleHash [8]) ≠ some r ∧
    (collectGarbage .calm 9 ∅ (Call.runAll sampleHash halfRetired)).2.2.files.lookup
      (sampleHash [7]) = some f := by
  have hr : ((Call.runAll sampleHash halfRetired).chunks.lookup (sampleHash [8])).isSome =
      true := by
    decide
  have hf : ((Call.runAll sampleHash halfRetired).files.lookup (sampleHash [7])).isSome = true := by
    decide
  have active : ((Call.runAll sampleHash halfRetired).manifests.lookup (sampleHash [7])).any
      (fun m => !m.retired && m.chunkHashes.contains (sampleHash [7])) = true := by decide
  have unlisted : ∀ e ∈ Dict.toList (Call.runAll sampleHash halfRetired).manifests,
      e.2.retired = false → sampleHash [8] ∉ e.2.chunkHashes := by decide
  obtain ⟨r, hr⟩ := Option.isSome_iff_exists.1 hr
  obtain ⟨f, hf⟩ := Option.isSome_iff_exists.1 hf
  obtain ⟨records, files⟩ := collection_exact halfRetired_timed halfRetired_before
    (by decide : (collectGarbage .calm 9 ∅ (Call.runAll sampleHash halfRetired)).2.1 = [])
  refine ⟨r, f, hr, hf, fun hr' => ?_, (files _ f).2 ⟨hf, ?_⟩⟩
  · obtain ⟨-, id, m, hm, hmr, hh⟩ := (records _ r).1 hr'
    exact unlisted (id, m) (Dict.mem_toList.2 hm) hmr hh
  · obtain ⟨m, hm, hh⟩ := (Option.any_eq_true _ _).1 active
    simp only [Bool.and_eq_true, Bool.not_eq_true', List.contains_eq_mem, decide_eq_true_eq] at hh
    exact ⟨_, m, hm, hh.1, hh.2⟩

end HashBox.Vault
