import HashBox.Vault.Proof.Objects

/-!
# RetainManifest and the grace period

`RetainManifest` rewrites a tombstone and looks at no chunk, so it may bring back a manifest whose
chunks a sweep has taken (`retain_unreadable`). It does not if no sweep since the retirement reached
it: a `History` records which retired manifests have *expired*, that is, of which a sweep found a
chunk that no manifest, active or in its grace period, guards. In runs that retain no expired
manifest, every manifest that is active or has not expired is backed (`RetainInv`).
-/

namespace HashBox.Vault

variable {blake3 : Bytes → Hash} {cfg : FastCdc.Config} {S : Set Bytes} {d d' : Disk}

/-- The retired manifests that a sweep reaches, through a chunk that nothing guards. -/
def Call.expires (d : Disk) : Call → Set Hash
  | .collectGarbage _ olderThan => {id | ∃ m, d.manifests.lookup id = some m ∧
      m.retired = true ∧ ∃ h ∈ m.chunkHashes, ¬ d.guarded olderThan h}
  | _ => ∅

/-- A disk with the manifests that sweeps have reached since they were retired. -/
structure History where
  disk : Disk
  expired : Set Hash

def History.next (blake3 : Bytes → Hash) (y : History) (c : Call) : History :=
  let disk := c.run blake3 y.disk
  { disk, expired := {id | (∃ m, disk.manifests.lookup id = some m ∧ m.retired = true) ∧
    (id ∈ y.expired ∨ id ∈ c.expires y.disk)} }

/-- The call works on data in `S` with the one configuration, and retains no expired manifest. -/
def History.inGrace (cfg : FastCdc.Config) (S : Set Bytes) (y : History) (c : Call) : Prop :=
  c.within {cfg} S ∧ ∀ id now, c = .retainManifest id now → id ∉ y.expired

/-! ## The invariant -/

/-- Every manifest that is active or has not expired is backed. -/
def History.Safe (y : History) : Prop :=
  ∀ id m, y.disk.manifests.lookup id = some m → m.retired = false ∨ id ∉ y.expired →
    y.disk.backed m

structure RetainInv (blake3 : Bytes → Hash) (cfg : FastCdc.Config) (S : Set Bytes) (y : History) :
    Prop where
  stored : Stored blake3 {cfg} S y.disk
  safe : y.Safe

theorem Disk.Grows.backed {m : ManifestRecord} (g : d.Grows d') (h : d.backed m) : d'.backed m :=
  fun c hc => g.present (h c hc)

/-- A manifest that is active or unexpired after a step is so before, if its record is the same. -/
theorem RetainInv.unchanged {y : History} (hy : RetainInv blake3 cfg S y) {c : Call} {id : Hash}
    {m : ManifestRecord} (hm : y.disk.manifests.lookup id = some m)
    (hm' : (y.next blake3 c).disk.manifests.lookup id = some m)
    (hc : m.retired = false ∨ id ∉ (y.next blake3 c).expired) :
    y.disk.backed m ∧ (m.retired = false ∨ id ∉ c.expires y.disk) := by
  cases hr : m.retired with
  | false => exact ⟨hy.safe id m hm (.inl hr), .inl rfl⟩
  | true =>
    rcases hc with hc | hc
    · rw [hr] at hc; cases hc
    · have hn : ∀ P : Prop, (P → id ∈ y.expired ∨ id ∈ c.expires y.disk) → ¬ P :=
        fun P hP h => hc ⟨⟨m, hm', hr⟩, hP h⟩
      exact ⟨hy.safe id m hm (.inr (hn _ .inl)), .inr (hn _ .inr)⟩

theorem lifecycle_lookup {manifestID id : Hash} {retired : Bool} {now : Time} {m : ManifestRecord}
    (h : updateManifestLifecycle d manifestID retired now = .ok d')
    (hm : d'.manifests.lookup id = some m) :
    d.manifests.lookup id = some m ∨
      ∃ e, id = manifestID ∧ d.manifests.lookup id = some e ∧ e.retired = !retired ∧
        m.chunkHashes = e.chunkHashes := by
  obtain ⟨e, he, -, ⟨-, rfl⟩ | ⟨hr, rfl⟩⟩ := updateManifestLifecycle_ok h
  · exact .inl hm
  · rcases Dict.lookup_insert_cases hm with ⟨hid, rfl⟩ | ⟨-, hm⟩
    · exact .inr ⟨e, hid, hid ▸ he, hr, rfl⟩
    · exact .inl hm

theorem Disk.backed_congr {m e : ManifestRecord} (h : m.chunkHashes = e.chunkHashes) :
    d.backed m ↔ d.backed e := by
  unfold Disk.backed
  rw [h]

theorem RetainInv.lifecycle {y : History} (hy : RetainInv blake3 cfg S y) {c : Call}
    (manifestID : Hash) (retired : Bool) (now : Time)
    (h : updateManifestLifecycle y.disk manifestID retired now = .ok (c.run blake3 y.disk))
    (hret : retired = false → manifestID ∉ y.expired) :
    (y.next blake3 c).Safe := by
  intro id m hm hc
  refine (updateManifestLifecycle_grows h).backed ?_
  rcases lifecycle_lookup h hm with hm0 | ⟨e, rfl, he, hr, hcs⟩
  · exact (hy.unchanged hm0 hm hc).1
  · rw [Disk.backed_congr hcs]
    refine hy.safe id e he ?_
    cases retired with
    | true => exact .inl hr
    | false => exact .inr (hret rfl)

theorem RetainInv.upload (hinj : Set.InjOn blake3 S) {y : History} (hy : RetainInv blake3 cfg S y)
    {env : UploadEnv} {fileName : String} {bytes : Bytes} (hb : bytes ∈ S) :
    (y.next blake3 (.processUpload cfg env fileName bytes)).Safe := by
  generalize hcall : Call.processUpload cfg env fileName bytes = c
  intro id m hm hc
  obtain ⟨d1, hadds, hend⟩ := processUpload_end blake3 env cfg fileName bytes y.disk
  have hrun : (y.next blake3 c).disk =
      (processUpload blake3 env cfg fileName bytes y.disk).2 := by
    subst hcall
    rfl
  -- up to the sessions the disk is `d1`, or what the commit made of `d1`
  have hcases : d1.SameData (y.next blake3 c).disk ∨ ∃ now d2,
      (∀ b ∈ FastCdc.chunks cfg bytes, d1.present (blake3 b)) ∧
      commitManifestAndChunkRefs d1 (newManifest (blake3 bytes)
        ((FastCdc.chunks cfg bytes).map blake3) bytes.length now) = .ok d2 ∧
      d2.SameData (y.next blake3 c).disk := by
    rw [hrun]
    cases hr : (processUpload blake3 env cfg fileName bytes y.disk).1 <;> rw [hr] at hend <;>
      cases hend
    · next hs => exact .inl hs
    · next now d2 hp hcom hs _ => exact .inr ⟨now, d2, hp, hcom, hs⟩
    · next now d2 hp hcom hs _ => exact .inr ⟨now, d2, hp, hcom, hs⟩
  have grows : ∀ {d2 : Disk}, d1.Grows d2 → d2.SameData (y.next blake3 c).disk →
      y.disk.Grows (y.next blake3 c).disk := by
    intro d2 hg hs
    have h2 := (Disk.AddsChunks.of_same hs : d2.AddsChunks blake3 [] _).grows
    exact ⟨fun k hk => h2.record k (hg.record k (hadds.grows.record k hk)),
      fun k hk => h2.file k (hg.file k (hadds.grows.file k hk))⟩
  rcases hcases with hs | ⟨now, d2, hp, hcom, hs⟩
  · have hm0 : y.disk.manifests.lookup id = some m := by
      rwa [hs.manifests, hadds.manifests] at hm
    exact (grows (.refl d1) hs).backed (hy.unchanged hm0 hm hc).1
  · have hg := grows (commit_grows hcom) hs
    -- a record that lists this upload's chunks is backed
    have own : ∀ e : ManifestRecord, e.chunkHashes = (FastCdc.chunks cfg bytes).map blake3 →
        (y.next blake3 c).disk.backed e := by
      intro e he h hh
      rw [he] at hh
      obtain ⟨b, hbm, rfl⟩ := List.mem_map.1 hh
      have h2 := (Disk.AddsChunks.of_same hs : d2.AddsChunks blake3 [] _).grows
      exact h2.present ((commit_grows hcom).present (hp b hbm))
    have hold : ∀ {e : ManifestRecord}, y.disk.manifests.lookup (blake3 bytes) = some e →
        e.chunkHashes = (FastCdc.chunks cfg bytes).map blake3 := by
      intro e he
      obtain ⟨bytes', hd⟩ := hy.stored.object _ e he
      obtain ⟨hv, hid⟩ := hy.stored.valid _ e he
      have heq : bytes' = bytes :=
        hinj hd.mem hb (by rw [← hd.fileHash, ← (validateManifest_ok.1 hv).1, hid])
      obtain ⟨cfg', hcfg, hcs, -⟩ := hd.chunks
      rw [hcs, Set.mem_singleton_iff.1 hcfg, heq]
    rw [hs.manifests] at hm
    have hm' := hm
    rcases commit_ok hcom with ⟨e, he, -, -, rfl⟩ | ⟨e, he, -, -, rfl⟩ | ⟨hn, chunks, -, rfl⟩
    · have hm0 : y.disk.manifests.lookup id = some m := by rwa [hadds.manifests] at hm
      exact hg.backed (hy.unchanged hm0 (hs.manifests ▸ hm') hc).1
    · rw [hadds.manifests] at hm
      rcases Dict.lookup_insert_cases hm with ⟨-, rfl⟩ | ⟨-, hm⟩
      · rw [hadds.manifests] at he
        exact own _ (hold (e := e) he)
      · exact hg.backed (hy.unchanged hm (hs.manifests ▸ hm') hc).1
    · rw [hadds.manifests] at hm
      rcases Dict.lookup_insert_cases hm with ⟨-, rfl⟩ | ⟨-, hm⟩
      · exact own _ rfl
      · exact hg.backed (hy.unchanged hm (hs.manifests ▸ hm') hc).1

/-- **A sweep takes no chunk of a manifest that it does not reach**, active or in its grace
period. -/
theorem Disk.backed_sweep (blake3 : Bytes → Hash) {id : Hash} {m : ManifestRecord}
    (hm : d.manifests.lookup id = some m) (hb : d.backed m) {env : SweepEnv} {olderThan : Time}
    (hkept : m.retired = false ∨ id ∉ (Call.collectGarbage env olderThan).expires d) :
    ((Call.collectGarbage env olderThan).run blake3 d).backed m := by
  have heff := collectGarbage_effect env olderThan ∅ d
  intro h hh
  have hguard : d.guarded olderThan h := by
    cases hr : m.retired with
    | false => exact .inl ⟨id, m, hm, hr, hh⟩
    | true =>
      by_contra hno
      exact hkept.resolve_left (by simp [hr]) ⟨m, hm, hr, h, hh, hno⟩
  exact ⟨heff.keptRecord h ⟨hb h hh, hguard⟩ (hb h hh).1,
    heff.keptFile h ⟨hb h hh, hguard⟩ (hb h hh).2⟩

theorem RetainInv.sweep {y : History} (hy : RetainInv blake3 cfg S y) {env : SweepEnv}
    {olderThan : Time} :
    (y.next blake3 (.collectGarbage env olderThan)).Safe := by
  intro id m hm hc
  have hm0 : y.disk.manifests.lookup id = some m :=
    (collectGarbage_effect env olderThan ∅ y.disk).manifests ▸ hm
  obtain ⟨hb, hkept⟩ := hy.unchanged hm0 hm hc
  exact Disk.backed_sweep blake3 hm0 hb hkept

/-- **A call that retains no expired manifest keeps the invariant.** -/
theorem RetainInv.next (hinj : Set.InjOn blake3 S) {y : History} {c : Call}
    (hy : RetainInv blake3 cfg S y) (hc : y.inGrace cfg S c) :
    RetainInv blake3 cfg S (y.next blake3 c) := by
  refine ⟨hy.stored.run hc.1, ?_⟩
  have failed : c.run blake3 y.disk = y.disk → (y.next blake3 c).Safe := by
    intro he id m hm hcond
    have hb := (hy.unchanged (he ▸ hm) hm hcond).1
    show (c.run blake3 y.disk).backed m
    rwa [he]
  cases c with
  | processUpload cfg' env fileName bytes =>
    obtain ⟨rfl, hb, -⟩ := hc.1
    exact hy.upload hinj hb
  | retireManifest manifestID now =>
    cases hr : updateManifestLifecycle y.disk manifestID true now with
    | error e => exact failed (by simp only [Call.run, retireManifest, hr])
    | ok d' =>
      refine hy.lifecycle manifestID true now ?_ fun h => by cases h
      rw [hr]
      simp only [Call.run, retireManifest, hr]
  | retainManifest manifestID now =>
    cases hr : updateManifestLifecycle y.disk manifestID false now with
    | error e => exact failed (by simp only [Call.run, retainManifest, hr])
    | ok d' =>
      refine hy.lifecycle manifestID false now ?_ fun _ => hc.2 _ _ rfl
      rw [hr]
      simp only [Call.run, retainManifest, hr]
  | collectGarbage env olderThan => exact hy.sweep

/-- **Retain within the grace period restores a readable object.** In every state reached by calls
that retain no manifest a sweep has reached since its retirement, a `RetainManifest` of such a
manifest that succeeds leaves all its chunks in place, and the object opens to its bytes. -/
theorem retain_readable (hinj : Set.InjOn blake3 S) {y : History} {manifestID : Hash} {now : Time}
    (hreach : Runs.Reach (fun y c => some (y.next blake3 c)) (fun y c => y.inGrace cfg S c)
      (· = ⟨.empty, ∅⟩) y)
    (hgrace : manifestID ∉ y.expired)
    (hret : retainManifest y.disk manifestID now = .ok d') :
    (∃ m, d'.manifests.lookup manifestID = some m ∧ d'.backed m) ∧
    ∃ bytes ∈ S, blake3 bytes = manifestID ∧ ∀ strictVerify strictVerifyMaxBytes,
      openObject blake3 strictVerify strictVerifyMaxBytes d' manifestID =
        .ok ⟨bytes.length, bytes, none⟩ := by
  have hy : RetainInv blake3 cfg S y := by
    refine hreach.inv (fun y hs => ?_) fun y c y' hy hc he => ?_
    · subst hs
      exact ⟨.empty, fun _ _ hl => by cases hl⟩
    · cases he
      exact hy.next hinj hc
  have hstored : Stored blake3 {cfg} S d' := hy.stored.lifecycle (fun hr => by cases hr) hret
  have hm : ∃ m, d'.manifests.lookup manifestID = some m ∧ d'.backed m := by
    obtain ⟨e, he, -, -⟩ := updateManifestLifecycle_ok hret
    have hb := (updateManifestLifecycle_grows hret).backed (hy.safe _ e he (.inr hgrace))
    obtain ⟨e', he', -, ⟨-, rfl⟩ | ⟨-, rfl⟩⟩ := updateManifestLifecycle_ok hret
    · exact ⟨e, he, hb⟩
    · rw [he] at he'
      cases he'
      exact ⟨_, (Dict.lookup_insert_if ..).trans (if_pos rfl), hb⟩
  refine ⟨hm, ?_⟩
  obtain ⟨m, hm, hb⟩ := hm
  obtain ⟨bytes, hd⟩ := hstored.object _ m hm
  obtain ⟨hv, hid⟩ := hstored.valid _ m hm
  exact ⟨bytes, hd.mem, by rw [← hd.fileHash, ← (validateManifest_ok.1 hv).1, hid], fun _ _ =>
    openObject_backed hinj hstored hm hd (fun h hh => (hb h hh).2) _ _⟩

/-- An upload retired at time 6, and a sweep of everything older than `olderThan`. -/
def retiredAndSwept (olderThan : Time) : List Call :=
  [.processUpload (sampleConfig 1) (.calm 1 5) "a.bin" [7, 8],
    .retireManifest (sampleHash [7, 8]) 6, .collectGarbage .calm olderThan]

theorem retiredAndSwept_within {olderThan : Time} {c : Call} (hc : c ∈ retiredAndSwept olderThan) :
    c.within {sampleConfig 1} sampleData ∧ ∀ id now, c ≠ .retainManifest id now := by
  simp only [retiredAndSwept, List.mem_cons, List.not_mem_nil, or_false] at hc
  rcases hc with rfl | rfl | rfl
  · exact ⟨sampleData_within (.inl rfl) (Set.mem_singleton _) _, fun _ _ h => by cases h⟩
  · exact ⟨(by decide : (6 : Nat) ≠ 0), fun _ _ h => by cases h⟩
  · exact ⟨trivial, fun _ _ h => by cases h⟩

theorem retain_readable_in_grace : ∃ d',
    retainManifest ((retiredAndSwept 6).foldl (Call.run sampleHash) .empty) (sampleHash [7, 8]) 7 =
      .ok d' ∧
    (∃ m, d'.manifests.lookup (sampleHash [7, 8]) = some m ∧ d'.backed m) ∧
    ∃ bytes ∈ sampleData, sampleHash bytes = sampleHash [7, 8] ∧
      ∀ strictVerify strictVerifyMaxBytes,
        openObject sampleHash strictVerify strictVerifyMaxBytes d' (sampleHash [7, 8]) =
          .ok ⟨bytes.length, bytes, none⟩ := by
  have ok : (retainManifest ((retiredAndSwept 6).foldl (Call.run sampleHash) .empty)
      (sampleHash [7, 8]) 7).isOk = true := by decide
  cases hret : retainManifest ((retiredAndSwept 6).foldl (Call.run sampleHash) .empty)
      (sampleHash [7, 8]) 7 with
  | error e => rw [hret] at ok; cases ok
  | ok d' =>
    let y := (retiredAndSwept 6).foldl (History.next sampleHash) ⟨.empty, ∅⟩
    have hreach : Runs.Reach (fun y c => some (History.next sampleHash y c))
        (fun y c => y.inGrace (sampleConfig 1) sampleData c) (· = ⟨.empty, ∅⟩) y := by
      refine Runs.Reach.exec (.init rfl) (fun c hc y => ?_)
        (rfl : Runs.exec _ _ (retiredAndSwept 6) = some y)
      obtain ⟨hw, hne⟩ := retiredAndSwept_within hc
      exact ⟨hw, fun id now he => absurd he (hne id now)⟩
    have retired : ((((retiredAndSwept 6).take 2).foldl (Call.run sampleHash)
        .empty).manifests.lookup (sampleHash [7, 8])).any (fun m => m.retiredAt == some 6) =
          true := by decide
    have hgrace : sampleHash [7, 8] ∉ y.expired := by
      rintro ⟨-, (⟨-, (⟨-, h | h⟩ | h)⟩ | ⟨m, hm, hr, h, hh, hno⟩)⟩
      · exact h
      · exact h
      · exact h
      · -- the manifest guards its own chunks, retired at 6
        obtain ⟨m', hm', h6⟩ := (Option.any_eq_true _ _).1 retired
        cases hm'.symm.trans hm
        exact hno (.inr ⟨_, m, 6, hm, hr, beq_iff_eq.1 h6, Nat.le_refl 6, hh⟩)
    exact ⟨d', rfl, retain_readable sampleData_injOn hreach hgrace hret⟩

/-- **Retain after a sweep brings back a manifest without its chunks.** -/
theorem retain_unreadable : Set.InjOn sampleHash sampleData ∧ ∃ d d' m,
    Runs.Reach (fun d c => some (Call.run sampleHash d c))
      (fun _ c => c.within {sampleConfig 1} sampleData) (· = .empty) d ∧
    retainManifest d (sampleHash [7, 8]) 10 = .ok d' ∧
    d'.manifests.lookup (sampleHash [7, 8]) = some m ∧ ¬ d'.backed m ∧
    ∀ strictVerify strictVerifyMaxBytes body,
      openObject sampleHash strictVerify strictVerifyMaxBytes d' (sampleHash [7, 8]) ≠
        .ok body := by
  let d := (retiredAndSwept 9).foldl (Call.run sampleHash) .empty
  have run : (retainManifest d (sampleHash [7, 8]) 10).toOption.any (fun d' =>
      (d'.manifests.lookup (sampleHash [7, 8])).any fun m =>
        m.chunkHashes.any fun h => (d'.files.lookup h).isNone) = true := by decide
  obtain ⟨d', hd', run⟩ := Runs.any_ok run
  obtain ⟨m, hm, run⟩ := (Option.any_eq_true _ _).1 run
  obtain ⟨h, hh, hf⟩ := List.any_eq_true.1 run
  have hfile : ¬ d'.hasFile h := by
    rw [Disk.hasFile, Option.isNone_iff_eq_none.1 hf]
    decide
  exact ⟨sampleData_injOn, d, d', m,
    Runs.Reach.exec (.init rfl) (fun c hc _ => (retiredAndSwept_within hc).1) rfl, hd', hm,
    fun hb => hfile (hb h hh).2, fun _ _ _ => openObject_missing hm hh hfile _ _ _⟩

end HashBox.Vault
