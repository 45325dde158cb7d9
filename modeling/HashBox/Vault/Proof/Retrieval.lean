import HashBox.Vault.Retrieval
import HashBox.Vault.Proof.Manifests

/-!
# Strict and streaming retrieval agree

Both loops copy what `copyChunks` copies (`strictChunks_copy`, `streamChunks_copy`), so the paths of
`Store.lean` are theirs (`openObjectStrict_eq`, `openObjectStream_eq`). A stored manifest is that of
the upload that created it (`committedBy_runAll`), and with the bytes of that upload both paths
succeed exactly when every chunk file is intact (`retrieval_agrees`).
-/

namespace HashBox.Vault

variable {blake3 : Bytes → Hash} {d : Disk} {m : ManifestRecord}

/-! ## The loops -/

theorem strictChunks_copy (hs : List Hash) : ∀ (s : Retrieval.StrictLoop) (out : Bytes)
    (r : Option Error), s.fileHasher = s.tmpFile → s.totalWritten = s.tmpFile.length →
    copyChunks blake3 d hs s.tmpFile = (out, r) →
    Retrieval.strictChunks blake3 d.files hs s = r.elim (.ok ⟨out, out, out.length⟩) .error := by
  induction hs with
  | nil =>
    intro s out r h1 h2 h
    obtain ⟨tmpFile, fileHasher, totalWritten⟩ := s
    simp only at h1 h2
    subst h1 h2
    cases h
    rfl
  | cons h hs ih =>
    intro s out r h1 h2 hcopy
    simp only [copyChunks] at hcopy
    unfold Retrieval.strictChunks
    cases hl : d.files.lookup h with
    | none =>
      rw [hl] at hcopy
      cases hcopy
      rfl
    | some f =>
      rw [hl] at hcopy
      dsimp only at hcopy ⊢
      split at hcopy
      · next hne =>
        cases hcopy
        rw [if_pos hne]
        rfl
      · next heq =>
        rw [if_neg heq]
        refine ih _ _ _ ?_ ?_ hcopy
        · rw [h1]
        · rw [List.length_append, h2]
          exact (Int.natCast_add ..).symm

theorem streamChunks_copy (fileHash : Hash) (hs : List Hash) : ∀ (fileHasher : Bytes)
    (pw : List Bytes) (out : Bytes) (r : Option Error), fileHasher = pw.flatten →
    copyChunks blake3 d hs fileHasher = (out, r) →
    (Retrieval.streamChunks blake3 d.files fileHash hs fileHasher pw).writes.flatten = out ∧
      (Retrieval.streamChunks blake3 d.files fileHash hs fileHasher pw).closedWith =
        r.elim (if blake3 out ≠ fileHash then some (.other "object hash does not match manifest")
          else none) some := by
  induction hs with
  | nil =>
    intro fileHasher pw out r hpw h
    cases h
    unfold Retrieval.streamChunks
    split
    · exact ⟨hpw.symm, rfl⟩
    · exact ⟨hpw.symm, rfl⟩
  | cons h hs ih =>
    intro fileHasher pw out r hpw hcopy
    simp only [copyChunks] at hcopy
    unfold Retrieval.streamChunks
    cases hl : d.files.lookup h with
    | none =>
      rw [hl] at hcopy
      cases hcopy
      exact ⟨hpw.symm, rfl⟩
    | some f =>
      rw [hl] at hcopy
      have happ : fileHasher ++ f.content = (pw ++ [f.content]).flatten := by
        rw [List.flatten_append, List.flatten_singleton, hpw]
      dsimp only at hcopy ⊢
      split at hcopy
      · next hne =>
        cases hcopy
        rw [if_pos hne]
        exact ⟨happ.symm, rfl⟩
      · next heq =>
        rw [if_neg heq]
        exact ih _ _ _ _ happ hcopy

/-- The strict path of `Store.lean` is the loop over the temporary file. -/
theorem openObjectStrict_eq (blake3 : Bytes → Hash) (d : Disk) (m : ManifestRecord) :
    Retrieval.openObjectStrict blake3 d.files m = openObjectStrict blake3 d m := by
  rcases hcopy : copyChunks blake3 d m.chunkHashes [] with ⟨out, r⟩
  unfold Retrieval.openObjectStrict openObjectStrict
  rw [hcopy, strictChunks_copy _ _ out r rfl rfl hcopy]
  cases r <;> rfl

/-- The streaming path of `Store.lean` is the loop over the pipe. -/
theorem openObjectStream_eq (blake3 : Bytes → Hash) (d : Disk) (m : ManifestRecord) :
    Retrieval.openObjectStream blake3 d.files m = openObjectStream blake3 d m := by
  rcases hcopy : copyChunks blake3 d m.chunkHashes [] with ⟨out, r⟩
  obtain ⟨h1, h2⟩ := streamChunks_copy m.fileHash _ [] [] out r rfl hcopy
  unfold Retrieval.openObjectStream openObjectStream
  dsimp only
  rw [hcopy, h1, h2]
  cases r with
  | none =>
    dsimp only [Option.elim]
    split <;> rfl
  | some e => rfl

/-! ## Intact chunks -/

def ChunkFile.Intact (blake3 : Bytes → Hash) (files : Dict Hash ChunkFile) (c : Bytes) : Prop :=
  (files.lookup (blake3 c)).map (·.content) = some c

/-- The loop copies intact chunks, and stops with an error at the first other one. -/
theorem copyChunks_intact {S : Set Bytes} (hinj : Set.InjOn blake3 S)
    (hd : ∀ h f, d.files.lookup h = some f → f.content ∈ S) (cs : List Bytes) : ∀ out : Bytes,
    (∀ c ∈ cs, c ∈ S) →
    ((∀ c ∈ cs, ChunkFile.Intact blake3 d.files c) ∧
        copyChunks blake3 d (cs.map blake3) out = (out ++ cs.flatten, none)) ∨
      ((¬ ∀ c ∈ cs, ChunkFile.Intact blake3 d.files c) ∧
        ∃ out' e, copyChunks blake3 d (cs.map blake3) out = (out', some e)) := by
  induction cs with
  | nil =>
    refine fun out _ => .inl ⟨fun _ h => (by cases h), ?_⟩
    rw [List.flatten_nil, List.append_nil]
    rfl
  | cons c cs ih =>
    intro out hS
    rw [List.map_cons, copyChunks, List.forall_mem_cons]
    have hc := hS c List.mem_cons_self
    cases hl : d.files.lookup (blake3 c) with
    | none =>
      refine .inr ⟨fun h => ?_, _, _, rfl⟩
      have h1 := h.1
      rw [ChunkFile.Intact, hl] at h1
      cases h1
    | some f =>
      dsimp only
      by_cases hb : blake3 f.content = blake3 c
      · have hf : f.content = c := hinj (hd _ f hl) hc hb
        have hi : ChunkFile.Intact blake3 d.files c := by rw [ChunkFile.Intact, hl, ← hf]; rfl
        rw [if_neg (not_not_intro hb), hf, List.flatten_cons, ← List.append_assoc]
        rcases ih (out ++ c) fun c' h => hS c' (List.mem_cons_of_mem _ h) with ⟨h1, h2⟩ | ⟨h1, h2⟩
        · exact .inl ⟨⟨hi, h1⟩, h2⟩
        · exact .inr ⟨fun h => h1 h.2, h2⟩
      · rw [if_pos hb]
        refine .inr ⟨fun h => hb ?_, _, _, rfl⟩
        have h1 := h.1
        rw [ChunkFile.Intact, hl, Option.map_some, Option.some.injEq] at h1
        rw [h1]

/-! ## The upload of a manifest -/

def CommittedBy (blake3 : Bytes → Hash) (cs : List Call) (id : Hash) (cfg : FastCdc.Config)
    (bytes : Bytes) : Prop :=
  ∃ env fileName pre post, cs = pre ++ .processUpload cfg env fileName bytes :: post ∧
    (Call.runAll blake3 pre).manifests.lookup id = none ∧ id = blake3 bytes

theorem CommittedBy.concat {cs : List Call} {id : Hash} {cfg : FastCdc.Config} {bytes : Bytes}
    (h : CommittedBy blake3 cs id cfg bytes) (c : Call) :
    CommittedBy blake3 (cs ++ [c]) id cfg bytes := by
  obtain ⟨env, fileName, pre, post, rfl, hn, hid⟩ := h
  exact ⟨env, fileName, pre, post ++ [c], by rw [List.append_assoc, List.cons_append], hn, hid⟩

theorem CommittedBy.mem {cs : List Call} {id : Hash} {cfg : FastCdc.Config} {bytes : Bytes}
    (h : CommittedBy blake3 cs id cfg bytes) :
    ∃ env fileName, .processUpload cfg env fileName bytes ∈ cs := by
  obtain ⟨env, fileName, pre, post, rfl, -⟩ := h
  exact ⟨env, fileName, List.mem_append_right _ List.mem_cons_self⟩

/-- **A stored manifest describes the stream of the upload that created it.** -/
theorem committedBy_runAll {cs : List Call} {id : Hash}
    (hm : (Call.runAll blake3 cs).manifests.lookup id = some m) :
    ∃ cfg bytes, CommittedBy blake3 cs id cfg bytes ∧ m.fileHash = blake3 bytes ∧
      m.chunkHashes = (FastCdc.chunks cfg bytes).map blake3 ∧
      m.totalSizeBytes = bytes.length := by
  induction cs using List.reverseRecOn generalizing m with
  | nil => cases hm
  | append_singleton cs c ih =>
    rw [Call.runAll_concat] at hm
    have hstep := c.run_manifest blake3 (Call.runAll blake3 cs) id
    rw [hm] at hstep
    generalize ho : (Call.runAll blake3 cs).manifests.lookup id = o at hstep
    -- a record found before keeps what the object is
    have keep : ∀ m0, o = some m0 → ∃ cfg bytes, CommittedBy blake3 (cs ++ [c]) id cfg bytes ∧
        m0.fileHash = blake3 bytes ∧ m0.chunkHashes = (FastCdc.chunks cfg bytes).map blake3 ∧
        m0.totalSizeBytes = bytes.length := by
      intro m0 hm0
      obtain ⟨cfg, bytes, hby, h1⟩ := ih (ho.trans hm0)
      exact ⟨cfg, bytes, hby.concat c, h1⟩
    cases hstep with
    | same => exact keep m rfl
    | @created cfg env fileName bytes now hc hid =>
      exact ⟨cfg, bytes, ⟨env, fileName, cs, [], by rw [hc], ho, hid⟩, hid, rfl, rfl⟩
    | @reactivated _ _ _ _ m0 =>
      have h := keep m0 rfl
      exact h
    | @retired _ m0 =>
      have h := keep m0 rfl
      exact h
    | @retained _ m0 =>
      have h := keep m0 rfl
      exact h

def Call.dataIn (S : Set Bytes) : Call → Prop
  | .processUpload cfg _ _ bytes => bytes ∈ S ∧ ∀ c ∈ FastCdc.chunks cfg bytes, c ∈ S
  | .retireManifest .. => True
  | .retainManifest .. => True
  | .collectGarbage .. => True

/-- **Strict and streaming retrieval agree.** A stored manifest was created by an upload; whatever
the chunk files hold now, both paths deliver the bytes of that upload and announce their number if
every chunk is intact, and otherwise both end with an error. -/
theorem retrieval_agrees {S : Set Bytes} {cs : List Call} {id : Hash}
    (hinj : Set.InjOn blake3 S) (hcs : ∀ c ∈ cs, c.dataIn S)
    (hm : (Call.runAll blake3 cs).manifests.lookup id = some m) (files : Dict Hash ChunkFile)
    (hfiles : ∀ h f, files.lookup h = some f → f.content ∈ S) :
    ∃ cfg bytes, CommittedBy blake3 cs id cfg bytes ∧
      ((Retrieval.openObjectStrict blake3 files m).isOk = true ↔
        (Retrieval.openObjectStream blake3 files m).err = none) ∧
      (∀ body, Retrieval.openObjectStrict blake3 files m = .ok body →
        body = ⟨bytes.length, bytes, none⟩ ∧
          Retrieval.openObjectStream blake3 files m = ⟨bytes.length, bytes, none⟩) ∧
      ((Retrieval.openObjectStrict blake3 files m).isOk = true ↔
        ∀ c ∈ FastCdc.chunks cfg bytes, ChunkFile.Intact blake3 files c) := by
  obtain ⟨cfg, bytes, hby, hhash, hchunks, hsize⟩ := committedBy_runAll hm
  obtain ⟨env, fileName, hup⟩ := hby.mem
  let d : Disk := { Disk.empty with files }
  have hstrict : Retrieval.openObjectStrict blake3 files m = openObjectStrict blake3 d m :=
    openObjectStrict_eq blake3 d m
  have hstream : Retrieval.openObjectStream blake3 files m = openObjectStream blake3 d m :=
    openObjectStream_eq blake3 d m
  refine ⟨cfg, bytes, hby, ?_⟩
  rw [hstrict, hstream]
  unfold openObjectStrict openObjectStream
  rw [hchunks]
  rcases copyChunks_intact (d := d) hinj hfiles _ [] (hcs _ hup).2 with
    ⟨hi, hcopy⟩ | ⟨hi, out, e, hcopy⟩
  · rw [FastCdc.chunks_flatten, List.nil_append] at hcopy
    rw [hcopy, hhash, hsize]
    dsimp only
    rw [if_neg (not_not_intro rfl), if_neg (not_not_intro rfl)]
    exact ⟨⟨fun _ => rfl, fun _ => rfl⟩, fun body hb => by cases hb; exact ⟨rfl, rfl⟩,
      ⟨fun _ => hi, fun _ => rfl⟩⟩
  · rw [hcopy]
    exact ⟨⟨fun h => (by cases h), fun h => (by cases h)⟩, fun body hb => (by cases hb),
      ⟨fun h => (by cases h), fun h => absurd h hi⟩⟩

/-- The chunk files of `[7, 8]` cut into single bytes, the second of them extended. -/
def extendedFiles : Dict Hash ChunkFile :=
  (AList.insert (sampleHash [7]) ⟨[7], 5⟩ ∅).insert (sampleHash [8]) ⟨[7, 8], 5⟩

theorem retrieval_agrees_extended : ∃ m,
    (Call.runAll sampleHash retiredTwice).manifests.lookup (sampleHash [7, 8]) = some m ∧
      (Retrieval.openObjectStrict sampleHash extendedFiles m).isOk = false ∧
      (Retrieval.openObjectStream sampleHash extendedFiles m).err ≠ none := by
  have run : ((Call.runAll sampleHash retiredTwice).manifests.lookup (sampleHash [7, 8])).any
      (fun m => !(Retrieval.openObjectStrict sampleHash extendedFiles m).isOk) = true := by decide
  obtain ⟨m, hm, hfail⟩ := (Option.any_eq_true _ _).1 run
  rw [Bool.not_eq_true'] at hfail
  have calls : ∀ c ∈ retiredTwice, c.dataIn sampleData := by
    intro c hc
    simp only [retiredTwice, List.mem_cons, List.not_mem_nil, or_false] at hc
    rcases hc with rfl | rfl | rfl
    · have h : (Call.processUpload (sampleConfig 1) (.calm 1 5) "a.bin" [7, 8]).within
          Set.univ sampleData := sampleData_within (.inl rfl) (Set.mem_univ _) _
      exact h.2
    · trivial
    · trivial
  have files : ∀ h f, extendedFiles.lookup h = some f → f.content ∈ sampleData := by
    intro h f hf
    rcases Dict.lookup_insert_cases hf with ⟨-, rfl⟩ | ⟨-, hf⟩
    · exact .inl rfl
    · rcases Dict.lookup_insert_cases hf with ⟨-, rfl⟩ | ⟨-, hf⟩
      · exact .inr (.inl rfl)
      · cases hf
  obtain ⟨_, _, -, hagree, -⟩ := retrieval_agrees sampleData_injOn calls hm extendedFiles files
  exact ⟨m, hm, hfail, fun h => by rw [hagree.2 h] at hfail; cases hfail⟩

end HashBox.Vault
