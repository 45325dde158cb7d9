import HashBox.Vault.Calls
import HashBox.Vault.Proof.StoreFacts

/-!
# What a whole upload does to the disk

`processUpload_touched`: whatever fails, an upload touches its own chunks (`Disk.Touched`) and
nothing else, and its last effect on the manifests, if any, is the commit of its stream with all its
chunks present. `processUpload_end` is the same with what touching adds (`Disk.AddsChunks`).
-/

namespace HashBox.Vault

variable {blake3 : Bytes → Hash} {env : UploadEnv} {cfg : FastCdc.Config} {d d' : Disk}

/-- `d'` has the records and files of `d`, further records, and files of chunks among `cs`; the
manifests are the same. -/
structure Disk.AddsChunks (blake3 : Bytes → Hash) (cs : List Bytes) (d d' : Disk) : Prop where
  grows : d.Grows d'
  files : ∀ h f, d'.files.lookup h = some f →
    d.files.lookup h = some f ∨ ∃ c ∈ cs, h = blake3 c ∧ f.content = c
  kept : ∀ h f, d.files.lookup h = some f → d'.files.lookup h = some f
  manifests : d'.manifests = d.manifests

theorem Disk.AddsChunks.refl (d : Disk) : d.AddsChunks blake3 [] d :=
  ⟨.refl d, fun _ _ => .inl, fun _ _ => id, rfl⟩

theorem Disk.AddsChunks.trans {d'' : Disk} {cs cs' : List Bytes} (h : d.AddsChunks blake3 cs d')
    (h' : d'.AddsChunks blake3 cs' d'') : d.AddsChunks blake3 (cs ++ cs') d'' := by
  refine ⟨⟨fun c hc => h'.grows.record c (h.grows.record c hc),
    fun c hc => h'.grows.file c (h.grows.file c hc)⟩, fun k f hf => ?_,
    fun k f hf => h'.kept k f (h.kept k f hf), h'.manifests.trans h.manifests⟩
  rcases h'.files k f hf with hf | ⟨c, hc, hk⟩
  · rcases h.files k f hf with hf | ⟨c, hc, hk⟩
    · exact .inl hf
    · exact .inr ⟨c, List.mem_append_left _ hc, hk⟩
  · exact .inr ⟨c, List.mem_append_right _ hc, hk⟩

theorem Disk.AddsChunks.mono {cs cs' : List Bytes} (h : d.AddsChunks blake3 cs d')
    (hsub : ∀ c ∈ cs, c ∈ cs') : d.AddsChunks blake3 cs' d' :=
  ⟨h.grows, fun k f hf => (h.files k f hf).imp_right fun ⟨c, hc, hk⟩ => ⟨c, hsub c hc, hk⟩, h.kept,
    h.manifests⟩

theorem writeChunkIfMissing_adds (d : Disk) (c : Bytes) (now : Time) :
    d.AddsChunks blake3 [c] (writeChunkIfMissing d (blake3 c) c now) := by
  refine ⟨writeChunkIfMissing_grows .., fun k f hf => ?_, fun k f hf => ?_,
    writeChunkIfMissing_manifests ..⟩
  · unfold writeChunkIfMissing at hf
    split at hf
    · exact .inl hf
    · rcases Dict.lookup_insert_cases hf with ⟨hk, rfl⟩ | ⟨-, hf⟩
      · exact .inr ⟨c, List.mem_singleton_self c, hk, rfl⟩
      · exact .inl hf
  · unfold writeChunkIfMissing
    split
    · exact hf
    · next hn =>
      have hne : k ≠ blake3 c := fun he => by rw [he, hn] at hf; cases hf
      simpa only [Dict.lookup_insert_if, hne, if_false] using hf

theorem putNewChunk_adds (d : Disk) (h : Hash) (n : Nat) (now : Time) :
    d.AddsChunks blake3 [] (putNewChunk d h n now).2 := by
  have hf : (putNewChunk d h n now).2.files = d.files := by
    unfold putNewChunk
    split <;> rfl
  exact ⟨putNewChunk_grows .., fun k f h => .inl (hf ▸ h), fun k f h => hf ▸ h,
    putNewChunk_manifests ..⟩

/-- What an upload does to the disk before its commit: it writes files of the chunks `cs`, creates
records of chunks whose file is there, and stores its session. -/
inductive Disk.Touched (blake3 : Bytes → Hash) (env : UploadEnv) (cs : List Bytes) (d : Disk) :
    Disk → Prop
  | refl : Touched blake3 env cs d d
  | write {d' : Disk} {c : Bytes} (index : Nat) : Touched blake3 env cs d d' → c ∈ cs →
    Touched blake3 env cs d
      (writeChunkIfMissing d' (blake3 c) c (env.clock (.persist index)))
  | putRecord {d' : Disk} {c : Bytes} (index : Nat) : Touched blake3 env cs d d' → c ∈ cs →
    d'.hasFile (blake3 c) →
    Touched blake3 env cs d
      (putNewChunk d' (blake3 c) c.length (env.clock (.putRecord index))).2
  | session {d' : Disk} (r : UploadSessionRecord) : Touched blake3 env cs d d' →
    Touched blake3 env cs d (putUploadSession d' r)

theorem Disk.Touched.trans {d'' : Disk} {cs : List Bytes} (h : d.Touched blake3 env cs d')
    (h' : d'.Touched blake3 env cs d'') : d.Touched blake3 env cs d'' := by
  induction h' with
  | refl => exact h
  | write index _ hc ih => exact .write index ih hc
  | putRecord index _ hc hf ih => exact .putRecord index ih hc hf
  | session r _ ih => exact .session r ih

theorem Disk.Touched.mono {cs cs' : List Bytes} (h : d.Touched blake3 env cs d')
    (hsub : ∀ c ∈ cs, c ∈ cs') : d.Touched blake3 env cs' d' := by
  induction h with
  | refl => exact .refl
  | write index _ hc ih => exact .write index ih (hsub _ hc)
  | putRecord index _ hc hf ih => exact .putRecord index ih (hsub _ hc) hf
  | session r _ ih => exact .session r ih

theorem Disk.Touched.addsChunks {cs : List Bytes} (h : d.Touched blake3 env cs d') :
    d.AddsChunks blake3 cs d' := by
  induction h with
  | refl => exact (Disk.AddsChunks.refl d).mono fun _ h => by cases h
  | write index _ hc ih =>
    refine (ih.trans (writeChunkIfMissing_adds ..)).mono fun c' hc' => ?_
    rcases List.mem_append.1 hc' with hc' | hc'
    · exact hc'
    · rwa [List.mem_singleton.1 hc']
  | putRecord index _ _ _ ih =>
    refine (ih.trans (putNewChunk_adds ..)).mono fun c' hc' => ?_
    rwa [List.append_nil] at hc'
  | session r _ ih => exact ⟨⟨ih.grows.record, ih.grows.file⟩, ih.files, ih.kept, ih.manifests⟩

theorem touchChunk_spec (blake3 : Bytes → Hash) (env : UploadEnv) (index : Nat) (d : Disk)
    (c : Bytes) :
    d.Touched blake3 env [c] (touchChunk blake3 env index d c).2 ∧
      ∀ created, (touchChunk blake3 env index d c).1 = .ok created →
        (touchChunk blake3 env index d c).2.present (blake3 c) := by
  have hwrite : d.Touched blake3 env [c]
      (writeChunkIfMissing d (blake3 c) c (env.clock (.persist index))) :=
    .write index .refl (List.mem_singleton_self c)
  unfold touchChunk
  split
  · exact ⟨.refl, fun _ h => by cases h⟩
  · split
    · next r hr =>
      have hrec : d.hasRecord (blake3 c) := by
        rw [Disk.hasRecord, show d.chunks.lookup (blake3 c) = some r from hr]
        rfl
      split
      · next hf => exact ⟨.refl, fun _ _ => ⟨hrec, hf⟩⟩
      · split
        · exact ⟨.refl, fun _ h => by cases h⟩
        · exact ⟨hwrite, fun _ _ =>
            ⟨(writeChunkIfMissing_grows ..).record _ hrec, writeChunkIfMissing_hasFile ..⟩⟩
    · split
      · exact ⟨.refl, fun _ h => by cases h⟩
      · dsimp only
        split
        · exact ⟨hwrite, fun _ h => by cases h⟩
        · exact ⟨.putRecord index hwrite (List.mem_singleton_self c)
              (writeChunkIfMissing_hasFile ..), fun _ _ =>
            ⟨putNewChunk_hasRecord .., (putNewChunk_grows ..).file _
              (writeChunkIfMissing_hasFile ..)⟩⟩

/-- **The loop over the chunks.** -/
theorem uploadChunks_spec (blake3 : Bytes → Hash) (env : UploadEnv) (cs : List Bytes) :
    ∀ (u : UploadLoop) (d : Disk),
    d.Touched blake3 env cs (uploadChunks blake3 env cs u d).2 ∧
      ∀ u', (uploadChunks blake3 env cs u d).1 = .ok u' →
        u'.written = u.written ++ cs.flatten ∧
        u'.chunkHashes = u.chunkHashes ++ cs.map blake3 ∧
        u'.totalSize = u.totalSize + cs.flatten.length ∧
        ∀ c ∈ cs, (uploadChunks blake3 env cs u d).2.present (blake3 c) := by
  induction cs with
  | nil =>
    intro u d
    unfold uploadChunks
    split
    · exact ⟨.refl, fun _ h => by cases h⟩
    · refine ⟨.refl, fun _ h => ?_⟩
      cases h
      simp
  | cons c rest ih =>
    intro u d
    obtain ⟨htouch, hpres⟩ := touchChunk_spec blake3 env u.chunkHashes.length d c
    have hsub : ∀ c' ∈ [c], c' ∈ c :: rest := fun c' hc' =>
      List.mem_cons.2 (.inl (List.mem_singleton.1 hc'))
    replace htouch := htouch.mono hsub
    unfold uploadChunks
    dsimp only
    split
    · exact ⟨.refl, fun _ h => by cases h⟩
    · split
      · next e d1 he =>
        rw [he] at htouch
        exact ⟨htouch, fun _ h => by cases h⟩
      · next created d1 he =>
        rw [he] at htouch hpres
        obtain ⟨hrest, hok⟩ := ih
          { written := u.written ++ c
            chunkHashes := u.chunkHashes ++ [blake3 c]
            totalSize := u.totalSize + c.length
            newChunkCount := if created then u.newChunkCount + 1 else u.newChunkCount
            reuseChunkCount := if created then u.reuseChunkCount else u.reuseChunkCount + 1 } d1
        refine ⟨htouch.trans (hrest.mono fun _ => List.mem_cons_of_mem c), fun u' hu' => ?_⟩
        obtain ⟨h1, h2, h3, h4⟩ := hok u' hu'
        refine ⟨?_, ?_, ?_, ?_⟩
        · rw [h1, List.flatten_cons, List.append_assoc]
        · rw [h2, List.map_cons, List.append_assoc, List.singleton_append]
        · rw [h3, List.flatten_cons, List.length_append]
          push_cast
          omega
        · intro c' hc'
          rcases List.mem_cons.1 hc' with rfl | hc'
          · exact hrest.addsChunks.grows.present (hpres created rfl)
          · exact h4 c' hc'

/-- The disks differ in upload sessions only. -/
structure Disk.SameData (d d' : Disk) : Prop where
  manifests : d'.manifests = d.manifests
  chunks : d'.chunks = d.chunks
  files : d'.files = d.files

theorem Disk.SameData.refl (d : Disk) : d.SameData d := ⟨rfl, rfl, rfl⟩

theorem Disk.SameData.trans {d'' : Disk} (h : d.SameData d') (h' : d'.SameData d'') :
    d.SameData d'' :=
  ⟨h'.manifests.trans h.manifests, h'.chunks.trans h.chunks, h'.files.trans h.files⟩

theorem putUploadSession_same (d : Disk) (r : UploadSessionRecord) :
    d.SameData (putUploadSession d r) :=
  ⟨rfl, rfl, rfl⟩

/-- What an upload of `bytes` did after it wrote its chunks: nothing and failed, or its commit. -/
inductive UploadEnd (blake3 : Bytes → Hash) (cfg : FastCdc.Config) (bytes : Bytes) (d d' : Disk) :
    Except Error UploadCommitResult → Prop
  | failed {e : Error} : d.SameData d' → UploadEnd blake3 cfg bytes d d' (.error e)
  | committed {now : Time} {d2 : Disk} {r : Except Error UploadCommitResult} :
    (∀ c ∈ FastCdc.chunks cfg bytes, d.present (blake3 c)) →
    commitManifestAndChunkRefs d (newManifest (blake3 bytes)
      ((FastCdc.chunks cfg bytes).map blake3) bytes.length now) = .ok d2 →
    d2.SameData d' →
    (∀ x, r = .ok x → x.manifestID = blake3 bytes ∧ x.totalSizeBytes = bytes.length ∧
      x.chunkCount = (FastCdc.chunks cfg bytes).length) → UploadEnd blake3 cfg bytes d d' r

theorem UploadEnd.same {bytes : Bytes} {d'' : Disk} {e e' : Error}
    (h : UploadEnd blake3 cfg bytes d d' (.error e)) (hs : d'.SameData d'') :
    UploadEnd blake3 cfg bytes d d'' (.error e') := by
  cases h with
  | failed h => exact .failed (h.trans hs)
  | committed hp hc hd _ => exact .committed hp hc (hd.trans hs) fun _ h => by cases h

theorem commitUpload_end {bytes : Bytes} {u : UploadLoop} (session : UploadSessionRecord)
    (hw : u.written = bytes) (hcs : u.chunkHashes = (FastCdc.chunks cfg bytes).map blake3)
    (ht : u.totalSize = bytes.length)
    (hp : ∀ c ∈ FastCdc.chunks cfg bytes, d.present (blake3 c)) :
    UploadEnd blake3 cfg bytes d (commitUpload blake3 env session u d).2.2
      (commitUpload blake3 env session u d).1 := by
  unfold commitUpload
  dsimp only
  split
  · exact .failed (.refl d)
  · split
    · exact .failed (.refl d)
    · split
      · exact .failed (.refl d)
      · next d2 hc =>
        rw [hw, hcs, ht] at hc
        split
        · exact .committed hp hc (.refl d2) fun _ h => by cases h
        · refine .committed hp hc (putUploadSession_same ..) fun x hx => ?_
          cases hx
          refine ⟨by rw [hw]; rfl, ht, ?_⟩
          simp only [UploadLoop.result, newManifest, hcs, List.length_map]

theorem uploadBody_end (blake3 : Bytes → Hash) (env : UploadEnv) (cfg : FastCdc.Config)
    (session : UploadSessionRecord) (bytes : Bytes) (d : Disk) :
    ∃ d1, d.Touched blake3 env (FastCdc.chunks cfg bytes) d1 ∧
      UploadEnd blake3 cfg bytes d1 (uploadBody blake3 env cfg session bytes d).2.2
        (uploadBody blake3 env cfg session bytes d).1 := by
  unfold uploadBody
  split
  · exact ⟨d, .refl, .failed (.refl d)⟩
  · next cs hcs =>
    obtain ⟨rfl, -⟩ := FastCdc.split_ok hcs
    obtain ⟨htouch, hok⟩ := uploadChunks_spec blake3 env (FastCdc.chunks cfg bytes) .init d
    split
    · next e d1 he =>
      rw [he] at htouch
      exact ⟨d1, htouch, .failed (.refl d1)⟩
    · next u d1 he =>
      rw [he] at htouch hok
      obtain ⟨h1, h2, h3, h4⟩ := hok u rfl
      refine ⟨d1, htouch, commitUpload_end session ?_ ?_ ?_ h4⟩
      · rw [h1, UploadLoop.init, List.nil_append, FastCdc.chunks_flatten]
      · rw [h2, UploadLoop.init, List.nil_append]
      · rw [h3, UploadLoop.init, FastCdc.chunks_flatten, Int.zero_add]

theorem Disk.AddsChunks.of_same {cs : List Bytes} (hs : d.SameData d') :
    d.AddsChunks blake3 cs d' := by
  refine ⟨⟨fun c => ?_, fun c => ?_⟩, fun c f h => .inl (hs.files ▸ h), fun c f h => hs.files ▸ h,
    hs.manifests⟩
  · simp only [Disk.hasRecord, hs.chunks]
    exact id
  · simp only [Disk.hasFile, hs.files]
    exact id

/-- **Every upload, successful or failed**: it touches chunks of its own, then fails or commits; a
result announces the stream's hash, length and number of chunks. -/
theorem processUpload_touched (blake3 : Bytes → Hash) (env : UploadEnv) (cfg : FastCdc.Config)
    (fileName : String) (bytes : Bytes) (d : Disk) :
    ∃ d1, d.Touched blake3 env (FastCdc.chunks cfg bytes) d1 ∧
      UploadEnd blake3 cfg bytes d1 (processUpload blake3 env cfg fileName bytes d).2
        (processUpload blake3 env cfg fileName bytes d).1 := by
  unfold processUpload
  split
  · exact ⟨d, .refl, .failed (.refl d)⟩
  · exact ⟨d, .refl, .failed (.refl d)⟩
  · dsimp only
    let session := newUploadSession env.sessionID fileName (env.clock .createSession)
    obtain ⟨d1, htouch, hend⟩ := uploadBody_end blake3 env cfg session bytes
      (putUploadSession d session)
    refine ⟨d1, (Disk.Touched.session session .refl).trans htouch, ?_⟩
    split
    · next r _ d2 he => rw [he] at hend; exact hend
    · next e session d2 he =>
      rw [he] at hend
      split
      · exact hend.same (.refl d2)
      · exact hend.same (putUploadSession_same ..)

theorem processUpload_end (blake3 : Bytes → Hash) (env : UploadEnv) (cfg : FastCdc.Config)
    (fileName : String) (bytes : Bytes) (d : Disk) :
    ∃ d1, d.AddsChunks blake3 (FastCdc.chunks cfg bytes) d1 ∧
      UploadEnd blake3 cfg bytes d1 (processUpload blake3 env cfg fileName bytes d).2
        (processUpload blake3 env cfg fileName bytes d).1 := by
  obtain ⟨d1, htouch, hend⟩ := processUpload_touched blake3 env cfg fileName bytes d
  exact ⟨d1, htouch.addsChunks, hend⟩

end HashBox.Vault
