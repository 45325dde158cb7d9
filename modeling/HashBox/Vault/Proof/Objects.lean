import Mathlib.Data.Set.Function
import HashBox.Vault.System
import HashBox.Vault.Proof.Sweeps
import HashBox.Vault.Proof.Uploads

/-!
# Stored objects and reading them back

`Stored` is what every sequence of calls keeps true of the disk: a file has the bytes its name is
the hash of, a manifest is valid and describes one uploaded stream, cut by some configuration. On
such a disk an object whose chunk files are all there is read back byte for byte
(`openObject_backed`). Whether they are there after an upload is `readback_iff`: an upload of a
stream that has a manifest already keeps that manifest's chunk list, whatever it cut itself.
-/

namespace HashBox.Vault

variable {blake3 : Bytes → Hash} {cfgs : Set FastCdc.Config} {S : Set Bytes} {d d' : Disk}

/-! ## The invariant -/

/-- The record of the object `bytes`, cut by one of the configurations `cfgs`. -/
structure ManifestRecord.Describes (blake3 : Bytes → Hash) (cfgs : Set FastCdc.Config)
    (S : Set Bytes) (m : ManifestRecord) (bytes : Bytes) : Prop where
  mem : bytes ∈ S
  fileHash : m.fileHash = blake3 bytes
  size : m.totalSizeBytes = bytes.length
  chunks : ∃ cfg ∈ cfgs, m.chunkHashes = (FastCdc.chunks cfg bytes).map blake3 ∧
    ∀ c ∈ FastCdc.chunks cfg bytes, c ∈ S

/-- What calls on data in `S` leave on the disk. -/
structure Stored (blake3 : Bytes → Hash) (cfgs : Set FastCdc.Config) (S : Set Bytes) (d : Disk) :
    Prop where
  file : ∀ h f, d.files.lookup h = some f → f.content ∈ S ∧ blake3 f.content = h
  valid : ∀ id m, d.manifests.lookup id = some m → validateManifest m = .ok () ∧ m.manifestID = id
  object : ∀ id m, d.manifests.lookup id = some m → ∃ bytes, m.Describes blake3 cfgs S bytes

/-- The data a call works on is in `S` and its clock is past Go's zero time. -/
def Call.within (cfgs : Set FastCdc.Config) (S : Set Bytes) : Call → Prop
  | .processUpload cfg _ _ bytes => cfg ∈ cfgs ∧ bytes ∈ S ∧ ∀ c ∈ FastCdc.chunks cfg bytes, c ∈ S
  | .retireManifest _ now => now ≠ 0
  | .retainManifest _ _ => True
  | .collectGarbage _ _ => True

theorem Stored.empty : Stored blake3 cfgs S .empty :=
  ⟨fun _ _ h => (by cases h), fun _ _ h => (by cases h), fun _ _ h => (by cases h)⟩

theorem Stored.congr (hd : Stored blake3 cfgs S d) (hm : d'.manifests = d.manifests)
    (hf : ∀ h f, d'.files.lookup h = some f → d.files.lookup h = some f) :
    Stored blake3 cfgs S d' :=
  ⟨fun h f hh => hd.file h f (hf h f hh), fun id m h => hd.valid id m (hm ▸ h),
    fun id m h => hd.object id m (hm ▸ h)⟩

theorem Stored.same (hd : Stored blake3 cfgs S d) (hs : d.SameData d') : Stored blake3 cfgs S d' :=
  hd.congr hs.manifests fun _ _ h => hs.files ▸ h

theorem Stored.addsChunks {cs : List Bytes} (hd : Stored blake3 cfgs S d)
    (h : d.AddsChunks blake3 cs d') (hcs : ∀ c ∈ cs, c ∈ S) : Stored blake3 cfgs S d' := by
  refine ⟨fun k f hf => ?_, fun id m hm => hd.valid id m (h.manifests ▸ hm),
    fun id m hm => hd.object id m (h.manifests ▸ hm)⟩
  rcases h.files k f hf with hf | ⟨c, hc, rfl, rfl⟩
  · exact hd.file k f hf
  · exact ⟨hcs _ hc, rfl⟩

theorem Stored.insert {m : ManifestRecord} {bytes : Bytes} (hd : Stored blake3 cfgs S d)
    (hv : validateManifest m = .ok ()) (hb : m.Describes blake3 cfgs S bytes)
    (hm : d'.manifests = d.manifests.insert m.manifestID m) (hf : d'.files = d.files) :
    Stored blake3 cfgs S d' := by
  refine ⟨fun h f hh => hd.file h f (hf ▸ hh), fun id e he => ?_, fun id e he => ?_⟩
  · rw [hm] at he
    rcases Dict.lookup_insert_cases he with ⟨hid, rfl⟩ | ⟨-, he⟩
    · exact ⟨hv, hid.symm⟩
    · exact hd.valid id e he
  · rw [hm] at he
    rcases Dict.lookup_insert_cases he with ⟨-, rfl⟩ | ⟨-, he⟩
    · exact ⟨bytes, hb⟩
    · exact hd.object id e he

/-- A change of the tombstone keeps a stored record valid, if a retirement has its time. -/
theorem Stored.tombstone {manifestID : Hash} {m : ManifestRecord} {retired : Bool}
    {retiredAt : Option Time} (hd : Stored blake3 cfgs S d)
    (hm : d.manifests.lookup manifestID = some m)
    (ht : retired = true → retiredAt.getD 0 ≠ 0)
    (he : d'.manifests = d.manifests.insert manifestID { m with retired, retiredAt })
    (hf : d'.files = d.files) : Stored blake3 cfgs S d' := by
  obtain ⟨hv, hid⟩ := hd.valid _ _ hm
  obtain ⟨bytes, hb⟩ := hd.object _ _ hm
  obtain ⟨h1, h2, h3, h4, -⟩ := validateManifest_ok.1 hv
  refine hd.insert (m := { m with retired, retiredAt })
    (validateManifest_ok.2 ⟨h1, h2, h3, h4, ht⟩) ⟨hb.mem, hb.fileHash, hb.size, hb.chunks⟩ ?_ hf
  rw [he, hid]

theorem Stored.lifecycle {manifestID : Hash} {retired : Bool} {now : Time}
    (hd : Stored blake3 cfgs S d) (hnow : retired = true → now ≠ 0)
    (h : updateManifestLifecycle d manifestID retired now = .ok d') : Stored blake3 cfgs S d' := by
  obtain ⟨m, hm, -, ⟨-, rfl⟩ | ⟨-, rfl⟩⟩ := updateManifestLifecycle_ok h
  · exact hd
  · refine hd.tombstone hm (fun hr => ?_) rfl rfl
    rw [if_pos hr]
    exact hnow hr

theorem Stored.commit {cfg : FastCdc.Config} {bytes : Bytes} {now : Time}
    (hd : Stored blake3 cfgs S d) (hcfg : cfg ∈ cfgs) (hb : bytes ∈ S)
    (hcs : ∀ c ∈ FastCdc.chunks cfg bytes, c ∈ S)
    (h : commitManifestAndChunkRefs d (newManifest (blake3 bytes)
      ((FastCdc.chunks cfg bytes).map blake3) bytes.length now) = .ok d') :
    Stored blake3 cfgs S d' := by
  rcases commit_ok h with ⟨e, -, -, -, rfl⟩ | ⟨e, he, -, -, rfl⟩ | ⟨-, chunks, -, rfl⟩
  · exact hd
  · exact hd.tombstone he (fun hr => by cases hr) rfl rfl
  · refine hd.insert (validateManifest_ok.2 ?_) ⟨hb, rfl, rfl, cfg, hcfg, rfl, hcs⟩ rfl rfl
    exact ⟨rfl, rfl, Int.natCast_nonneg _, rfl, fun hr => by cases hr⟩

/-- **Every call keeps the invariant.** -/
theorem Stored.run {c : Call} (hd : Stored blake3 cfgs S d) (hc : c.within cfgs S) :
    Stored blake3 cfgs S (c.run blake3 d) := by
  cases c with
  | processUpload cfg env fileName bytes =>
    obtain ⟨d1, hadds, hend⟩ := processUpload_end blake3 env cfg fileName bytes d
    have h1 := hd.addsChunks hadds hc.2.2
    simp only [Call.run]
    cases hr : (processUpload blake3 env cfg fileName bytes d).1 <;> rw [hr] at hend <;>
      cases hend
    · next hs => exact h1.same hs
    · next hcom hs _ => exact (h1.commit hc.1 hc.2.1 hc.2.2 hcom).same hs
    · next hcom hs _ => exact (h1.commit hc.1 hc.2.1 hc.2.2 hcom).same hs
  | retireManifest manifestID now =>
    simp only [Call.run, retireManifest]
    split
    · next h => exact hd.lifecycle (fun _ => hc) h
    · exact hd
  | retainManifest manifestID now =>
    simp only [Call.run, retainManifest]
    split
    · next h => exact hd.lifecycle (fun hr => by cases hr) h
    · exact hd
  | collectGarbage env olderThan =>
    have h := collectGarbage_effect env olderThan ∅ d
    exact hd.congr h.manifests h.files

/-! ## Reading back -/

section
variable (hinj : Set.InjOn blake3 S)
include hinj

theorem Stored.content (hd : Stored blake3 cfgs S d) {c : Bytes} (hc : c ∈ S)
    (hf : d.hasFile (blake3 c)) : ∃ f, d.files.lookup (blake3 c) = some f ∧ f.content = c := by
  obtain ⟨f, hf⟩ := Option.isSome_iff_exists.1 hf
  obtain ⟨hS, hh⟩ := hd.file _ f hf
  exact ⟨f, hf, hinj hS hc hh⟩

theorem Stored.copyChunks (hd : Stored blake3 cfgs S d) (cs : List Bytes) : ∀ out : Bytes,
    (∀ c ∈ cs, c ∈ S) → (∀ c ∈ cs, d.hasFile (blake3 c)) →
      copyChunks blake3 d (cs.map blake3) out = (out ++ cs.flatten, none) := by
  induction cs with
  | nil => intro out _ _; simp [Vault.copyChunks]
  | cons c cs ih =>
    intro out hS hf
    obtain ⟨f, hl, hc⟩ := hd.content hinj (hS c List.mem_cons_self) (hf c List.mem_cons_self)
    rw [List.map_cons, Vault.copyChunks, hl]
    simp only [hc, ne_eq, not_true_eq_false, if_false]
    rw [ih _ (fun c' h => hS c' (List.mem_cons_of_mem _ h))
      (fun c' h => hf c' (List.mem_cons_of_mem _ h)), List.flatten_cons, List.append_assoc]

/-- **An object whose files are there is read back byte for byte**, in both retrieval modes. -/
theorem openObject_backed (hd : Stored blake3 cfgs S d) {manifestID : Hash} {m : ManifestRecord}
    {bytes : Bytes} (hm : d.manifests.lookup manifestID = some m)
    (hb : m.Describes blake3 cfgs S bytes) (hf : ∀ h ∈ m.chunkHashes, d.hasFile h)
    (strictVerify : Bool) (strictVerifyMaxBytes : Int) :
    openObject blake3 strictVerify strictVerifyMaxBytes d manifestID =
      .ok ⟨bytes.length, bytes, none⟩ := by
  obtain ⟨cfg, -, hcs, hS⟩ := hb.chunks
  have hget : getManifest d manifestID = .ok m := getManifest_ok.2 ⟨hm, (hd.valid _ m hm).1⟩
  have hpre : m.chunkHashes.find? (fun h => !(d.files.lookup h).isSome) = none := by
    rw [List.find?_eq_none]
    intro h hh
    have hh := hf h hh
    unfold Disk.hasFile at hh
    simp only [hh, Bool.not_true, Bool.false_eq_true, not_false_eq_true]
  have hcopy : copyChunks blake3 d m.chunkHashes [] = (bytes, none) := by
    rw [hcs] at hf ⊢
    rw [hd.copyChunks hinj _ _ hS fun c hc => hf _ (List.mem_map_of_mem hc), List.nil_append,
      FastCdc.chunks_flatten]
  unfold openObject openObjectStrict openObjectStream
  simp only [hget, hpre, hcopy, hb.fileHash, ne_eq, not_true_eq_false, if_false, hb.size, ite_self]

omit hinj

theorem openObject_missing {manifestID h : Hash} {m : ManifestRecord}
    (hm : d.manifests.lookup manifestID = some m) (hh : h ∈ m.chunkHashes) (hf : ¬ d.hasFile h)
    (strictVerify : Bool) (strictVerifyMaxBytes : Int) (body : ObjectBody) :
    openObject blake3 strictVerify strictVerifyMaxBytes d manifestID ≠ .ok body := by
  intro ho
  unfold openObject at ho
  cases hg : getManifest d manifestID with
  | error e => rw [hg] at ho; cases ho
  | ok m' =>
    obtain ⟨hm', -⟩ := getManifest_ok.1 hg
    rw [hm] at hm'
    cases hm'
    rw [hg] at ho
    dsimp only at ho
    split at ho
    · cases ho
    · next hn =>
      rw [List.find?_eq_none] at hn
      exact hf (by simpa [Disk.hasFile, Option.isSome_iff_ne_none] using hn h hh)

include hinj

/-! ## After an upload -/

/-- What an upload of `bytes` finds lets the object be read back: no manifest yet, or one that has
as many chunks as this configuration cuts, all on disk or among the chunks cut now. -/
def Disk.readable (blake3 : Bytes → Hash) (cfg : FastCdc.Config) (bytes : Bytes) (d : Disk) :
    Prop :=
  ∀ m, d.manifests.lookup (blake3 bytes) = some m →
    m.chunkHashes.length = (FastCdc.chunks cfg bytes).length ∧
      ∀ h ∈ m.chunkHashes, d.hasFile h ∨ h ∈ (FastCdc.chunks cfg bytes).map blake3

/-- The result is read back: the bytes, their length, the number of chunks. -/
def ReadBack (blake3 : Bytes → Hash) (d : Disk) (bytes : Bytes) (r : UploadCommitResult) : Prop :=
  (∀ strictVerify strictVerifyMaxBytes,
    openObject blake3 strictVerify strictVerifyMaxBytes d r.manifestID =
      .ok ⟨r.totalSizeBytes, bytes, none⟩) ∧
  ∃ m, getManifest d r.manifestID = .ok m ∧ m.chunkCount = r.chunkCount

/-- With the stored manifest of `bytes` at hand, reading back needs its files and its count. -/
theorem readBack_of_manifest (hd : Stored blake3 cfgs S d) {bytes : Bytes} (hbytes : bytes ∈ S)
    {m : ManifestRecord} (hm : d.manifests.lookup (blake3 bytes) = some m)
    {r : UploadCommitResult} (hid : r.manifestID = blake3 bytes)
    (hsize : r.totalSizeBytes = bytes.length) :
    ReadBack blake3 d bytes r ↔
      m.chunkHashes.length = r.chunkCount ∧ ∀ h ∈ m.chunkHashes, d.hasFile h := by
  obtain ⟨hv, hmid⟩ := hd.valid _ m hm
  obtain ⟨hfh, hcount, -⟩ := validateManifest_ok.1 hv
  unfold ReadBack
  rw [hid, hsize]
  constructor
  · rintro ⟨hopen, m', hget, hc⟩
    obtain ⟨hm', -⟩ := getManifest_ok.1 hget
    rw [hm] at hm'
    cases hm'
    refine ⟨hcount ▸ hc, fun h hh => ?_⟩
    by_contra hf
    exact openObject_missing hm hh hf _ _ _ (hopen true 0)
  · rintro ⟨hlen, hf⟩
    obtain ⟨bytes', hb⟩ := hd.object _ m hm
    have heq : bytes' = bytes := hinj hb.mem hbytes (by rw [← hb.fileHash, ← hfh, hmid])
    subst heq
    exact ⟨fun _ _ => openObject_backed hinj hd hm hb hf _ _,
      m, getManifest_ok.2 ⟨hm, hv⟩, hcount.trans hlen⟩

/-- **Read-after-write, exactly.** In every state that calls on collision-free data reach, an upload
that succeeds is read back if and only if what it found on disk is readable for its
configuration. -/
theorem readback_iff {cfg : FastCdc.Config} {env : UploadEnv} {fileName : String} {bytes : Bytes}
    {r : UploadCommitResult}
    (hreach : Runs.Reach (fun d c => some (Call.run blake3 d c)) (fun _ c => c.within cfgs S)
      (· = .empty) d)
    (hcall : (Call.processUpload cfg env fileName bytes).within cfgs S)
    (hup : processUpload blake3 env cfg fileName bytes d = (.ok r, d')) :
    ReadBack blake3 d' bytes r ↔ d.readable blake3 cfg bytes := by
  have hd : Stored blake3 cfgs S d :=
    hreach.inv (fun _ hs => hs ▸ .empty) fun _ _ _ h hc he => by cases he; exact h.run hc
  obtain ⟨d1, hadds, hend⟩ := processUpload_end blake3 env cfg fileName bytes d
  rw [hup] at hend
  cases hend with | committed hp hcom hsame hr =>
  rename_i now d2
  obtain ⟨hid, hsize, hcount⟩ := hr r rfl
  have hd' : Stored blake3 cfgs S d' :=
    ((hd.addsChunks hadds hcall.2.2).commit hcall.1 hcall.2.1 hcall.2.2 hcom).same hsame
  -- the files afterwards are those before and those of the chunks cut now
  have hfiles : d2.files = d1.files := commit_files hcom
  have hfile : ∀ h, d'.hasFile h ↔
      d.hasFile h ∨ h ∈ (FastCdc.chunks cfg bytes).map blake3 := by
    intro h
    rw [Disk.hasFile, hsame.files, hfiles]
    constructor
    · intro hf
      obtain ⟨f, hf⟩ := Option.isSome_iff_exists.1 hf
      rcases hadds.files h f hf with hf | ⟨c, hc, rfl, -⟩
      · exact .inl (by rw [Disk.hasFile, hf]; rfl)
      · exact .inr (List.mem_map_of_mem hc)
    · rintro (hf | hf)
      · exact hadds.grows.file h hf
      · obtain ⟨c, hc, rfl⟩ := List.mem_map.1 hf
        exact (hp c hc).2
  -- the manifest stored afterwards has the chunk list of the one found, if one was
  have hman : ∃ m', d'.manifests.lookup (blake3 bytes) = some m' ∧
      ((d.manifests.lookup (blake3 bytes) = none ∧
          m'.chunkHashes = (FastCdc.chunks cfg bytes).map blake3) ∨
        ∃ e, d.manifests.lookup (blake3 bytes) = some e ∧ m'.chunkHashes = e.chunkHashes) := by
    rw [hsame.manifests, ← hadds.manifests]
    rcases commit_ok hcom with ⟨e, he, -, -, rfl⟩ | ⟨e, he, -, -, rfl⟩ | ⟨hn, chunks, -, rfl⟩
    · exact ⟨e, he, .inr ⟨e, he, rfl⟩⟩
    · refine ⟨{ e with retired := false, retiredAt := none }, ?_, .inr ⟨e, he, rfl⟩⟩
      exact (Dict.lookup_insert_if ..).trans (if_pos rfl)
    · refine ⟨_, (Dict.lookup_insert_if ..).trans (if_pos rfl), .inl ⟨hn, rfl⟩⟩
  obtain ⟨m', hm', hcs⟩ := hman
  rw [readBack_of_manifest hinj hd' hcall.2.1 hm' hid hsize, hcount]
  unfold Disk.readable
  rcases hcs with ⟨hn, hcs⟩ | ⟨e, he, hcs⟩
  · rw [hcs, List.length_map]
    refine ⟨fun _ m hm => ?_, fun _ => ⟨rfl, fun h hh => (hfile h).2 (.inr hh)⟩⟩
    rw [hn] at hm
    cases hm
  · rw [hcs]
    simp only [hfile]
    constructor
    · rintro ⟨hlen, hall⟩ m hm
      rw [he] at hm
      cases hm
      exact ⟨by exact_mod_cast hlen, hall⟩
    · intro hall
      obtain ⟨hlen, hall⟩ := hall e he
      exact ⟨by exact_mod_cast hlen, hall⟩

end

/-- A stream of two bytes, and the chunks that configurations for one and for two bytes cut. -/
def sampleData : Set Bytes := {[7, 8], [7], [8]}

theorem sampleData_injOn : Set.InjOn sampleHash sampleData := by
  rintro a (rfl | rfl | rfl) b (rfl | rfl | rfl) h
  all_goals first | rfl | exact absurd h (by decide)

theorem sampleData_within {n : Int} (hn : n = 1 ∨ n = 2) (hcfg : sampleConfig n ∈ cfgs)
    (env : UploadEnv) :
    (Call.processUpload (sampleConfig n) env "a.bin" [7, 8]).within cfgs sampleData := by
  refine ⟨hcfg, .inl rfl, ?_⟩
  rcases hn with rfl | rfl
  · rw [show FastCdc.chunks (sampleConfig 1) [7, 8] = [[7], [8]] by decide]
    simp [sampleData]
  · rw [show FastCdc.chunks (sampleConfig 2) [7, 8] = [[7, 8]] by decide]
    simp [sampleData]

/-- An upload, the retirement of its manifest, a sweep past the grace period. -/
def retiredAndCollected : List Call :=
  [.processUpload (sampleConfig 1) (.calm 1 5) "a.bin" [7, 8],
    .retireManifest (sampleHash [7, 8]) 6, .collectGarbage .calm 9]

theorem retiredAndCollected_reach : Runs.Reach (fun d c => some (Call.run sampleHash d c))
    (fun _ c => c.within Set.univ sampleData) (· = .empty)
    (retiredAndCollected.foldl (Call.run sampleHash) .empty) := by
  have calls : ∀ c ∈ retiredAndCollected, c.within Set.univ sampleData := by
    intro c hc
    simp only [retiredAndCollected, List.mem_cons, List.not_mem_nil, or_false] at hc
    rcases hc with rfl | rfl | rfl
    · exact sampleData_within (.inl rfl) (Set.mem_univ _) _
    · exact (by decide : (6 : Nat) ≠ 0)
    · exact trivial
  exact Runs.Reach.exec (.init rfl) (fun c hc _ => calls c hc) rfl

/-- The stream is uploaded again with the chunks of its retired manifest. -/
theorem readback_iff_retired : ∃ d m r d',
    retiredAndCollected.foldl (Call.run sampleHash) .empty = d ∧
    d.manifests.lookup (sampleHash [7, 8]) = some m ∧ m.retired = true ∧
    processUpload sampleHash (.calm 2 10) (sampleConfig 1) "a.bin" [7, 8] d = (.ok r, d') ∧
      ReadBack sampleHash d' [7, 8] r := by
  let d := retiredAndCollected.foldl (Call.run sampleHash) .empty
  have up : (processUpload sampleHash (.calm 2 10) (sampleConfig 1) "a.bin" [7, 8] d).1.isOk =
      true := by decide
  have stored : (d.manifests.lookup (sampleHash [7, 8])).any (fun m => m.retired &&
      m.chunkHashes == (FastCdc.chunks (sampleConfig 1) [7, 8]).map sampleHash) = true := by decide
  obtain ⟨m, hm, hstored⟩ := (Option.any_eq_true _ _).1 stored
  simp only [Bool.and_eq_true, beq_iff_eq] at hstored
  generalize hr : processUpload sampleHash (.calm 2 10) (sampleConfig 1) "a.bin" [7, 8] d = x at up
  obtain ⟨e | r, d'⟩ := x
  · cases up
  · refine ⟨d, m, r, d', rfl, hm, hstored.1, hr, (readback_iff sampleData_injOn
      retiredAndCollected_reach (sampleData_within (.inl rfl) (Set.mem_univ _) _) hr).2
        fun m' hm' => ?_⟩
    cases hm.symm.trans hm'
    rw [hstored.2, List.length_map]
    exact ⟨rfl, fun _ => .inr⟩

/-- **Read-after-write fails when the configuration has changed.** The second upload of the stream
succeeds, but reactivates the manifest with the chunks of the first configuration, which are
gone. -/
theorem readback_fails_rechunked : Set.InjOn sampleHash sampleData ∧ ∃ d r d',
    Runs.Reach (fun d c => some (Call.run sampleHash d c))
      (fun _ c => c.within Set.univ sampleData) (· = .empty) d ∧
    (Call.processUpload (sampleConfig 2) (.calm 2 10) "a.bin" [7, 8]).within Set.univ sampleData ∧
    processUpload sampleHash (.calm 2 10) (sampleConfig 2) "a.bin" [7, 8] d = (.ok r, d') ∧
    ∀ strictVerify strictVerifyMaxBytes body,
      openObject sampleHash strictVerify strictVerifyMaxBytes d' r.manifestID ≠ .ok body := by
  let d := retiredAndCollected.foldl (Call.run sampleHash) .empty
  have run : (processUpload sampleHash (.calm 2 10) (sampleConfig 2) "a.bin" [7, 8]
      d).1.toOption.any (fun r =>
        ((processUpload sampleHash (.calm 2 10) (sampleConfig 2) "a.bin" [7, 8]
          d).2.manifests.lookup r.manifestID).any fun m => m.chunkHashes.any fun h =>
        ((processUpload sampleHash (.calm 2 10) (sampleConfig 2) "a.bin" [7, 8]
          d).2.files.lookup h).isNone) = true := by
    decide
  refine ⟨sampleData_injOn, d, ?_⟩
  generalize hr : processUpload sampleHash (.calm 2 10) (sampleConfig 2) "a.bin" [7, 8] d = x
    at run ⊢
  obtain ⟨e | r, d'⟩ := x
  · cases run
  · obtain ⟨r', hr', run⟩ := (Option.any_eq_true _ _).1 run
    cases hr'
    obtain ⟨m, hm, hh⟩ := (Option.any_eq_true _ _).1 run
    obtain ⟨h, hh, hf⟩ := List.any_eq_true.1 hh
    refine ⟨r, d', retiredAndCollected_reach, sampleData_within (.inr rfl) (Set.mem_univ _) _, rfl,
      fun _ _ _ => openObject_missing hm hh ?_ _ _ _⟩
    unfold Disk.hasFile
    rw [Option.isNone_iff_eq_none.1 hf]
    decide

end HashBox.Vault
