import HashBox.Vault.Conflicts
import HashBox.Vault.Proof.Steps

/-!
# Two uploads at once

A transaction that commits has the effect of the step of `System.lean` that it stands for, one that
is refused that of the step that fails (`UploadSystem.refines`). What is left of "uploads do not
fail each other" is that an upload with a byte to store, in whose way no other upload has written,
returns its result.
-/

namespace HashBox.Vault

open Optimistic (Txn View Versions Pending applyWrites)

variable {cfg : FastCdc.Config} {blake3 : Bytes → Hash} {d d' : Disk} {s s' : Mem} {t : SessionID}
  {now : Time}

/-! ## The database -/

theorem Disk.get_set (d : Disk) (k : StoreKey) (v : k.Value) : (d.set ⟨k, v⟩).get k = some v := by
  cases k <;> exact (Dict.lookup_insert_if ..).trans (if_pos rfl)

theorem Disk.get_set_of_ne (d : Disk) {k : StoreKey} {w : Sigma StoreKey.Value} (h : k ≠ w.1) :
    (d.set w).get k = d.get k := by
  obtain ⟨k', v⟩ := w
  cases k <;> cases k'
  case manifest.manifest | chunk.chunk | upload.upload =>
    exact (Dict.lookup_insert_if ..).trans (if_neg fun he => h (congrArg _ he))
  all_goals rfl

theorem Disk.get_write (d : Disk) (ws : List (Sigma StoreKey.Value)) :
    (d.write ws).get = applyWrites ws d.get := by
  induction ws with
  | nil => rfl
  | cons w ws ih =>
    obtain ⟨k', v⟩ := w
    funext k
    rw [write, List.foldr_cons, applyWrites]
    by_cases h : k = k'
    · subst h
      rw [List.dlookup_cons_eq]
      exact get_set ..
    · rw [List.dlookup_cons_ne _ ⟨k', v⟩ h]
      exact (get_set_of_ne _ h).trans (congrFun ih k)

theorem Disk.get_write_of_notMem (d : Disk) {ws : List (Sigma StoreKey.Value)} {k : StoreKey}
    (h : k ∉ ws.map Sigma.fst) : (d.write ws).get k = d.get k := by
  rw [get_write, applyWrites, List.dlookup_eq_none.2 h]

/-! ## The transactions -/

/-- The transaction run in one piece: each write is there at once. -/
def StoreTxn.serial {ρ : Type} : StoreTxn ρ → Disk → Except Error (ρ × Disk)
  | .get k next, d => serial (next (d.get k)) d
  | .set k v next, d => serial next (d.set ⟨k, v⟩)
  | .ret x, d => .ok (x, d)
  | .fail e, _ => .error e

theorem StoreTxn.serial_eval {ρ : Type} (d : Disk) (t : StoreTxn ρ) :
    ∀ ws : List (Sigma StoreKey.Value), serial t (d.write ws) =
      (t.eval d.get ws).result.map fun x => (x, d.write (t.eval d.get ws).writes) := by
  induction t with
  | get k next ih =>
    intro ws
    obtain ⟨hw, hr⟩ := Txn.eval_get d.get k next ws
    rw [serial, Disk.get_write, hw, hr]
    exact ih _ ws
  | set k v next ih => exact fun ws => ih (⟨k, v⟩ :: ws)
  | ret x => exact fun _ => rfl
  | fail e => exact fun _ => rfl

theorem touchChunkTxn_serial (d : Disk) (h : Hash) (n : Nat) (now : Time) :
    StoreTxn.serial (touchChunkTxn h n now) d = .ok (putNewChunk d h n now) := by
  simp only [touchChunkTxn, putNewChunk, StoreTxn.serial, Disk.get]
  cases d.chunks.lookup h <;> rfl

theorem addChunkRefsTxn_serial (all : List Hash) (next : StoreTxn Unit) {hs : List Hash} :
    ∀ d : Disk, StoreTxn.serial (addChunkRefsTxn all hs next) d =
      (addChunkRefs all hs d.chunks).bind fun chunks =>
        StoreTxn.serial next { d with chunks } := by
  induction hs with
  | nil => exact fun _ => rfl
  | cons h hs ih =>
    intro d
    simp only [addChunkRefsTxn, addChunkRefs, StoreTxn.serial, Disk.get]
    cases d.chunks.lookup h with
    | none => rfl
    | some r => exact ih _

/-- The commit is its transaction, if the manifest passes the check before. -/
theorem commitManifestTxn_serial (d : Disk) {m : ManifestRecord}
    (hv : validateManifest { m with fileHash := m.manifestID } = .ok ()) :
    commitManifestAndChunkRefs d m =
      match StoreTxn.serial (commitManifestTxn { m with fileHash := m.manifestID }) d with
      | .ok r => .ok r.2
      | .error e => .error (.wrap "store manifest" e) := by
  simp only [commitManifestAndChunkRefs, hv, commitManifestTxn, StoreTxn.serial, Disk.get]
  cases d.manifests.lookup m.manifestID with
  | some e =>
    dsimp only
    cases validateManifest e with
    | error err => rfl
    | ok u =>
      dsimp only
      split <;> rfl
  | none =>
    dsimp only
    rw [addChunkRefsTxn_serial]
    cases addChunkRefs m.chunkHashes m.chunkHashes.dedup d.chunks <;> rfl

theorem StoreTxn.serial_map {ρ ρ' : Type} (f : ρ → ρ') (t : StoreTxn ρ) :
    ∀ d : Disk, serial (t.map f) d = (serial t d).map fun r => (f r.1, r.2) := by
  induction t with
  | get k next ih => exact fun d => ih (d.get k) d
  | set k v next ih => exact fun d => ih (d.set ⟨k, v⟩)
  | ret x => exact fun _ => rfl
  | fail e => exact fun _ => rfl

/-- **A transaction of an upload run in one piece is the step of `uploadStep`.** -/
theorem Upload.txn_serial {u : Upload} {txn : StoreTxn UploadPc} (h : u.txn blake3 now = some txn)
    (d : Disk) (s : Mem) (t : SessionID) :
    uploadStep blake3 d s t u (.go now) =
      match StoreTxn.serial txn d with
      | .ok (pc, d') => some (d', u.afterTxn s t, { u with pc })
      | .error e => uploadStep blake3 d s t u (.fail e) := by
  unfold Upload.txn at h
  split at h
  · next c hpc =>
    cases h
    rw [StoreTxn.serial_map, touchChunkTxn_serial]
    simp only [uploadStep, Upload.afterTxn, hpc]
    rfl
  · next m hpc =>
    dsimp only at h
    split at h
    · next hv =>
      cases h
      rw [StoreTxn.serial_map]
      simp only [uploadStep, Upload.afterTxn, hpc, commitManifestTxn_serial d hv]
      cases StoreTxn.serial (commitManifestTxn { m with fileHash := m.manifestID }) d <;> rfl
    · cases h
  · cases h

/-! ## The steps of the system -/

theorem uploadStep_fail_disk {u u' : Upload} {e : Error}
    (h : uploadStep blake3 d s t u (.fail e) = some (d', s', u')) : d' = d := by
  cases uploadStep_move h with
  | fail => rfl

/-- Outside of the transactions a step writes no key but that of the session. -/
theorem uploadStep_get {u u' : Upload}
    (h : uploadStep blake3 d s t u (.go now) = some (d', s', u'))
    (htxn : u.txn blake3 now = none) {k : StoreKey} (hk : k ∉ u.putsSession) :
    d'.get k = d.get k := by
  have session : ∀ r : UploadSessionRecord, r.sessionID = u.session.sessionID →
      u.putsSession = [.upload u.session.sessionID] → (putUploadSession d r).get k = d.get k := by
    intro r hr hput
    rw [hput, ← hr, List.mem_singleton] at hk
    exact Disk.get_set_of_ne d (w := ⟨.upload r.sessionID, r⟩) hk
  unfold Upload.txn at htxn
  unfold uploadStep at h
  dsimp only at h
  split at h
  case h_1 | h_8 | h_14 => cases h; rfl
  case h_2 =>
    split at h
    · cases h; rfl
    · cases h; rfl
    · split at h <;> cases h <;> rfl
  case h_3 | h_9 | h_13 =>
    obtain ⟨l, -, he⟩ := Option.map_eq_some_iff.1 h
    cases he
    rfl
  case h_4 | h_5 => split at h <;> cases h <;> rfl
  case h_6 =>
    cases h
    unfold writeChunkIfMissing
    split <;> cases k <;> rfl
  case h_7 hpc => rw [hpc] at htxn; cases htxn
  case h_10 m hpc =>
    split at h
    · next d' hc =>
      -- a manifest that is refused is not committed
      rw [hpc] at htxn
      simp only [commitManifestAndChunkRefs] at hc htxn
      split at hc
      · cases hc
      · next hv => rw [hv] at htxn; cases htxn
    · cases h; rfl
  case h_11 hpc | h_12 hpc =>
    cases h
    exact session _ rfl (by rw [Upload.putsSession, hpc])
  case h_15 => cases h

/-- The transaction that is pending began in an earlier state, with the step the upload is at. -/
def UploadCall.Begun (blake3 : Bytes → Hash) (y : UploadSystem) (c : UploadCall) : Prop :=
  ∀ p, c.pending = some p → ∃ now txn, c.upload.txn blake3 now = some txn ∧
    Pending.Since y.disk.get y.versions txn p

/-- The call's pending transaction may not commit. -/
def UploadCall.Conflicts (y : UploadSystem) (c : UploadCall) : Prop :=
  ∃ p, c.pending = some p ∧ p.conflicts y.versions = true

/-- **What a step of a call can do**: begin a transaction, or take a step of `uploadStep`, in which
a conflict is an error. -/
inductive UploadSystem.Move (blake3 : Bytes → Hash) (y : UploadSystem) (t : SessionID)
    (c : UploadCall) : UploadSystem → Prop
  | begin (now : Time) (txn : StoreTxn UploadPc) : c.pending = none →
    c.upload.txn blake3 now = some txn →
    Move blake3 y t c
      { y with calls :=
          y.calls.insert t { c with pending := some (.begin y.disk.get y.versions txn) } }
  | step (k : Choice) (keys : List StoreKey) (d : Disk) (s : Mem) (u : Upload) :
    uploadStep blake3 y.disk y.mem t c.upload k = some (d, s, u) →
    (∀ key ∉ keys, d.get key = y.disk.get key) →
    ((∃ now, k = .go now) ∨ c.Conflicts y ∧ ∃ e, k = .fail e) →
    Move blake3 y t c ⟨d, s, y.versions.commit keys, y.calls.insert t ⟨c.bytes, u, none⟩⟩

theorem UploadSystem.run_move {y y' : UploadSystem} {c : UploadCall} (hb : c.Begun blake3 y)
    (h : y.run blake3 t c now = some y') : Move blake3 y t c y' := by
  unfold run at h
  split at h
  · next hp =>
    split at h
    · next txn htxn => cases h; exact .begin now txn hp htxn
    · next htxn =>
      obtain ⟨⟨d, s, u⟩, hu, he⟩ := Option.map_eq_some_iff.1 h
      cases he
      exact .step _ _ d s u hu (fun _ hk => uploadStep_get hu htxn hk) (.inl ⟨now, rfl⟩)
  · next p hp =>
    obtain ⟨now', txn, htxn, hsince⟩ := hb p hp
    by_cases hc : p.conflicts y.versions = true
    · have : ∃ e, p.close y.versions errConflict = .error e := by
        unfold Pending.close
        cases p.outcome.result with
        | error e => exact ⟨e, rfl⟩
        | ok pc => exact ⟨errConflict, if_pos hc⟩
      obtain ⟨e, he⟩ := this
      rw [he] at h
      obtain ⟨⟨d, s, u⟩, hu, he⟩ := Option.map_eq_some_iff.1 h
      cases he
      exact .step _ _ d s u hu (fun _ _ => by rw [uploadStep_fail_disk hu])
        (.inr ⟨⟨p, hp, hc⟩, e, rfl⟩)
    · -- the transaction is what it would be in one piece here
      have hstep := Upload.txn_serial htxn y.disk y.mem t
      have hserial := StoreTxn.serial_eval y.disk txn []
      rw [← hsince.serial (by simpa using hc)] at hserial
      rw [show StoreTxn.serial txn y.disk = _ from hserial] at hstep
      unfold Pending.close at h
      cases hr : p.outcome.result with
      | error e =>
        rw [hr] at hstep h
        obtain ⟨⟨d, s, u⟩, hu, he⟩ := Option.map_eq_some_iff.1 h
        cases he
        exact .step _ _ d s u (hstep.trans hu) (fun _ _ => by rw [uploadStep_fail_disk hu])
          (.inl ⟨now', rfl⟩)
      | ok pc =>
        rw [hr] at hstep h
        simp only [hc] at h
        cases h
        exact .step _ _ _ _ _ hstep (fun _ hk => Disk.get_write_of_notMem _ hk)
          (.inl ⟨now', rfl⟩)

theorem UploadCall.Begun.frame {y y' : UploadSystem} {c : UploadCall} {keys : List StoreKey}
    (h : c.Begun blake3 y) (hv : y'.versions = y.versions.commit keys)
    (hd : ∀ k ∉ keys, y'.disk.get k = y.disk.get k) : c.Begun blake3 y' := by
  intro p hp
  obtain ⟨now, txn, htxn, hs⟩ := h p hp
  exact ⟨now, txn, htxn, hv ▸ hs.commit hd⟩

namespace UploadSystem

/-- Every pending transaction began in an earlier state. -/
def Begun (blake3 : Bytes → Hash) (y : UploadSystem) : Prop :=
  ∀ t c, y.calls.lookup t = some c → c.Begun blake3 y

theorem begun_idle (d : Disk) : (idle d).Begun blake3 := fun _ _ h => by cases h

theorem Move.begun {y y' : UploadSystem} {c : UploadCall} (h : Move blake3 y t c y')
    (hb : y.Begun blake3) : y'.Begun blake3 := by
  intro t' c' hc'
  cases h with
  | begin now txn hp htxn =>
    rcases Dict.lookup_insert_cases hc' with ⟨-, rfl⟩ | ⟨-, hc'⟩
    · intro p hp'
      cases hp'
      exact ⟨now, txn, htxn, Pending.since_begin ..⟩
    · exact hb t' c' hc'
  | step k keys d s u _ hd _ =>
    rcases Dict.lookup_insert_cases hc' with ⟨-, rfl⟩ | ⟨-, hc'⟩
    · intro p hp'
      cases hp'
    · exact (hb t' c' hc').frame rfl hd

theorem spawned_begun {y : UploadSystem} (hb : y.Begun blake3) (t : SessionID) (fileName : String)
    (bytes : Bytes) (now : Time) : (y.spawned cfg t fileName bytes now).Begun blake3 := by
  intro t' c' hc'
  rcases Dict.lookup_insert_cases hc' with ⟨-, rfl⟩ | ⟨-, hc'⟩
  · intro p hp'
    cases hp'
  · have hv : (y.spawned cfg t fileName bytes now).versions = y.versions.commit [.upload t] := rfl
    refine (hb t' c' hc').frame hv fun k hk => ?_
    exact Disk.get_set_of_ne y.disk (w := ⟨.upload t, newUploadSession t fileName now⟩)
      (by simpa using hk)

theorem step_cases {y y' : UploadSystem} {a : UploadAction} (hb : y.Begun blake3)
    (h : y.step cfg blake3 a = some y') :
    (∃ t fileName bytes now, a = .processUpload t fileName bytes now ∧
        y.calls.lookup t = none ∧ y' = y.spawned cfg t fileName bytes now) ∨
      ∃ t now c, a = .run t now ∧ y.calls.lookup t = some c ∧ Move blake3 y t c y' := by
  cases a with
  | processUpload t fileName bytes now =>
    simp only [step] at h
    split at h
    · cases h
    · next hn => cases h; exact .inl ⟨t, fileName, bytes, now, rfl, hn, rfl⟩
  | run t now =>
    obtain ⟨c, hc, hr⟩ := Option.bind_eq_some_iff.1 h
    exact .inr ⟨t, now, c, rfl, hc, run_move (hb t c hc) hr⟩

theorem step_begun {y y' : UploadSystem} {a : UploadAction} (hb : y.Begun blake3)
    (h : y.step cfg blake3 a = some y') : y'.Begun blake3 := by
  rcases step_cases hb h with ⟨t, fileName, bytes, now, -, -, rfl⟩ | ⟨t, now, c, -, hc, hm⟩
  · exact spawned_begun hb t fileName bytes now
  · exact hm.begun hb

/-- One store with uploads only, whose transactions are steps. -/
def Refines (y : UploadSystem) (z : System Unit) : Prop :=
  z.disk = y.disk ∧ (∀ i, z.mem i = y.mem) ∧
    ∀ t, z.threads t = (y.calls.lookup t).map fun c => ((), .upload c.upload)

/-- **Each run is one of `System.lean`.** A transaction takes effect where it commits, and a
conflict is one of the errors a step may end with. -/
theorem refines {y : UploadSystem}
    (h : Runs.Reach (step cfg blake3) (fun _ _ => True) (· = .idle d) y) :
    ∃ z, System.Reachable cfg blake3 d z ∧ y.Refines z := by
  suffices ∃ z, System.Reachable cfg blake3 d z ∧ y.Begun blake3 ∧ y.Refines z by
    obtain ⟨z, hz, -, hr⟩ := this
    exact ⟨z, hz, hr⟩
  have start : (idle d).Begun blake3 ∧ (idle d).Refines (.idle d) :=
    ⟨begun_idle d, rfl, fun _ => rfl, fun _ => rfl⟩
  refine h.simulate (R := fun y z => y.Begun blake3 ∧ y.Refines z) start ?_
  rintro y a y' z ⟨hb, hdisk, hmem, hthreads⟩ - hs
  have hb' := step_begun hb hs
  rcases step_cases hb hs with ⟨t, fileName, bytes, now, -, hn, rfl⟩ | ⟨t, now, c, -, hc, hm⟩
  · have hz : z.threads t = none := by rw [hthreads, hn]; rfl
    refine ⟨_, ⟨hb', ?_, ?_, ?_⟩,
      .inr ⟨.processUpload t () fileName bytes now, by rw [System.step, System.spawn, hz]⟩⟩
    · simp only [spawned, hdisk]
    · exact hmem
    · intro t'
      simp only [spawned, Function.update_apply, Dict.lookup_insert_if]
      split
      · rfl
      · exact hthreads t'
  · have hz : z.threads t = some ((), .upload c.upload) := by rw [hthreads, hc]; rfl
    cases hm with
    | begin now txn hp htxn =>
      refine ⟨z, ⟨hb', hdisk, hmem, fun t' => ?_⟩, .inl rfl⟩
      rw [hthreads, Dict.lookup_insert_if]
      split
      · next he => rw [he, hc]; rfl
      · rfl
    | step k keys d s u hu hd hk =>
      have hstep : System.step cfg blake3 z (.run t k) = some
          { disk := d
            mem := Function.update z.mem () s
            threads := Function.update z.threads t (some ((), .upload u)) } := by
        simp only [System.step, hz, Thread.step, hdisk, hmem, hu, Option.map_some]
      refine ⟨_, ⟨hb', ?_, ?_, ?_⟩, .inr ⟨.run t k, hstep⟩⟩
      · rfl
      · exact fun i => by simp only [Function.update_apply, if_true]
      · intro t'
        simp only [Function.update_apply, Dict.lookup_insert_if]
        split
        · rfl
        · exact hthreads t'

end UploadSystem

/-! ## The manifests -/

/-- Each stored manifest passes the check that an upload of it makes. -/
def Disk.validManifests (d : Disk) : Prop :=
  ∀ id m, d.manifests.lookup id = some m → validateManifest m = .ok ()

/-- The chunk an upload is working on. -/
def Upload.current (u : Upload) : List Bytes :=
  match u.pc with
  | .touchLock c | .getChunk c | .stat c | .persist c _ | .putRecord c | .mark c _ => [c]
  | _ => []

/-- The size that has been added up is that of the stream so far; so the manifest is valid. -/
def Upload.Counted (u : Upload) : Prop :=
  match u.pc with
  | .commitLock m | .commit m =>
    validateManifest { m with fileHash := m.manifestID } = .ok () ∧ m.retired = false
  | .finish _ | .failed _ | .unregisterLock _ | .unregister _ | .done _ => True
  | _ => u.totalSize + u.current.flatten.length = u.written.length

theorem Upload.counted_start (cfg : FastCdc.Config) (session : UploadSessionRecord)
    (bytes : Bytes) : (Upload.start cfg session bytes).Counted :=
  rfl

theorem Upload.Counted.step {u u' : Upload} {k : Choice} (hu : u.Counted)
    (h : uploadStep blake3 d s t u k = some (d', s', u')) : u'.Counted := by
  cases uploadStep_move h with
  | fail k session pc s' hid hpc => rcases hpc with ⟨e, rfl⟩ | ⟨r, rfl⟩ <;> exact trivial
  | read now c rest hpc hrest =>
    simp only [Upload.Counted, Upload.current, hpc] at hu ⊢
    simp only [List.flatten_cons, List.flatten_nil, List.append_nil, List.length_append,
      List.length_nil] at hu ⊢
    omega
  | build now hpc =>
    simp only [Upload.Counted, Upload.current, hpc] at hu
    have hsize : 0 ≤ u.totalSize := by
      simp only [List.flatten_nil, List.length_nil] at hu
      omega
    exact ⟨validateManifest_ok.2 ⟨rfl, rfl, hsize, rfl, fun hr => by cases hr⟩, rfl⟩
  | persist now c found hpc =>
    simp only [Upload.Counted, Upload.current, hpc] at hu
    cases found <;> exact hu
  | mark now c created hpc =>
    simp only [Upload.Counted, Upload.current, hpc] at hu ⊢
    simpa using hu
  | register now hpc | touchLock now c l hpc | found now c hpc | missing now c hpc
  | inPlace now c hpc | lost now c hpc | putRecord now c hpc | commitLock now m l hpc =>
    simp only [Upload.Counted, Upload.current, hpc] at hu
    exact hu
  | commit | finish | unregisterLock | unregister => exact trivial

theorem uploadStep_manifests {u u' : Upload} {k : Choice} (hu : u.Counted)
    (hs : uploadStep blake3 d s t u k = some (d', s', u')) (hv : d.validManifests) :
    d'.validManifests ∧ ∀ id, d.active id → d'.active id := by
  rcases (uploadStep_disk hs).2 with hm | ⟨m, hm, hc⟩
  · unfold Disk.validManifests Disk.active
    rw [hm]
    exact ⟨hv, fun _ => id⟩
  · rw [Upload.Counted, (Thread.commits_upload hm).1] at hu
    obtain ⟨hvalid, hr⟩ := hu
    refine ⟨fun id e he => ?_, fun id ha => (commit_active hr hc id).2 (.inl ha)⟩
    have stored : ∀ e', validateManifest e' = .ok () →
        d'.manifests = d.manifests.insert m.manifestID e' → validateManifest e = .ok () := by
      intro e' hv' hman
      rw [hman] at he
      rcases Dict.lookup_insert_cases he with ⟨-, rfl⟩ | ⟨-, he⟩
      · exact hv'
      · exact hv id e he
    rcases commit_ok hc with ⟨-, -, -, -, rfl⟩ | ⟨e', -, hv', -, rfl⟩ | ⟨-, _, -, rfl⟩
    · exact hv id e he
    · obtain ⟨h1, h2, h3, h4, -⟩ := validateManifest_ok.1 hv'
      exact stored { e' with retired := false, retiredAt := none }
        (validateManifest_ok.2 ⟨h1, h2, h3, h4, fun hr => by cases hr⟩) rfl
    · exact stored _ hvalid rfl

/-! ## An upload that no other disturbs -/

/-- The error for a stream without a byte. -/
def emptyUpload : Error := .detail .invalidUpload "berkas kosong tidak dapat dikomit"

/-- What an upload of `bytes` of which nothing fails returns. -/
def Disk.Uploaded (blake3 : Bytes → Hash) (d : Disk) (bytes : Bytes)
    (r : Except Error UploadCommitResult) : Prop :=
  if bytes = [] then r = .error emptyUpload
  else (∃ res, r = .ok res ∧ res.manifestID = blake3 bytes) ∧ d.active (blake3 bytes)

/-- The upload has met with no error but that for an empty stream. -/
def Upload.Healthy (blake3 : Bytes → Hash) (d : Disk) (bytes : Bytes) (u : Upload) : Prop :=
  match u.pc with
  | .failed e => bytes = [] ∧ e = emptyUpload
  | .commitLock _ | .commit _ => bytes ≠ []
  | .finish m => bytes ≠ [] ∧ m.manifestID = blake3 bytes ∧ d.active (blake3 bytes)
  | .unregisterLock r | .unregister r | .done r => d.Uploaded blake3 bytes r
  | _ => u.splitErr = none

/-- The upload reads `bytes` to their end before it commits. -/
def Upload.Progress (blake3 : Bytes → Hash) (bytes : Bytes) (u : Upload) : Prop :=
  match u.pc with
  | .commitLock m | .commit m => m.manifestID = blake3 bytes
  | .finish _ | .failed _ | .unregisterLock _ | .unregister _ | .done _ => True
  | _ => u.splitErr = none → u.written ++ u.rest.flatten = bytes

theorem Upload.progress_start (bytes : Bytes) (session : UploadSessionRecord) :
    (Upload.start cfg session bytes).Progress blake3 bytes := by
  intro hs
  unfold Upload.start at hs ⊢
  cases hsp : FastCdc.split cfg bytes with
  | error e => rw [hsp] at hs; cases hs
  | ok cs =>
    obtain ⟨rfl, -⟩ := FastCdc.split_ok hsp
    simp only [UploadLoop.init, List.nil_append, FastCdc.chunks_flatten]

theorem Upload.Progress.step {u u' : Upload} {bytes : Bytes} {k : Choice}
    (hu : u.Progress blake3 bytes)
    (h : uploadStep blake3 d s t u k = some (d', s', u')) : u'.Progress blake3 bytes := by
  cases uploadStep_move h with
  | fail k session pc s' hid hpc => rcases hpc with ⟨e, rfl⟩ | ⟨r, rfl⟩ <;> exact trivial
  | read now c rest hpc hrest =>
    simp only [Upload.Progress, hpc] at hu
    intro hs
    rw [← hu hs]
    simp only [hrest, List.flatten_cons, List.append_assoc]
  | build now hpc hrest hs =>
    simp only [Upload.Progress, hpc] at hu
    have hw := hu hs
    rw [hrest, List.flatten_nil, List.append_nil] at hw
    exact congrArg blake3 hw
  | persist now c found hpc =>
    simp only [Upload.Progress, hpc] at hu
    cases found <;> exact hu
  | register now hpc | touchLock now c l hpc | found now c hpc | missing now c hpc
  | inPlace now c hpc | lost now c hpc | putRecord now c hpc | mark now c created hpc
  | commitLock now m l hpc =>
    simp only [Upload.Progress, hpc] at hu
    exact hu
  | commit | finish | unregisterLock | unregister => exact trivial

/-- What an upload of `bytes` knows at each point if nothing of it fails. -/
structure Upload.Sound (blake3 : Bytes → Hash) (d : Disk) (bytes : Bytes) (u : Upload) :
    Prop where
  ok : u.Ok blake3 d
  progress : u.Progress blake3 bytes
  healthy : u.Healthy blake3 d bytes

theorem Upload.sound_start (hcfg : cfg.validate = .ok ()) (d : Disk)
    (session : UploadSessionRecord) (bytes : Bytes) :
    (Upload.start cfg session bytes).Sound blake3 d bytes := by
  refine ⟨Upload.ok_start d cfg session bytes,
    Upload.progress_start bytes session, ?_⟩
  simp only [Upload.Healthy, Upload.start, FastCdc.split, hcfg]
  rfl

theorem Disk.Uploaded.frame {bytes : Bytes} {r : Except Error UploadCommitResult}
    (h : d.Uploaded blake3 bytes r) (ha : ∀ id, d.active id → d'.active id) :
    d'.Uploaded blake3 bytes r := by
  unfold Disk.Uploaded at h ⊢
  split
  · next he => rwa [if_pos he] at h
  · next he => rw [if_neg he] at h; exact ⟨h.1, ha _ h.2⟩

theorem Upload.Sound.frame {u : Upload} {bytes : Bytes} (h : u.Sound blake3 d bytes)
    (hg : d.Grows d') (ha : ∀ id, d.active id → d'.active id) : u.Sound blake3 d' bytes := by
  refine ⟨h.ok.frame fun c _ => ⟨hg.record c, hg.file c⟩, h.progress, ?_⟩
  have hh := h.healthy
  unfold Upload.Healthy at hh ⊢
  split at hh
  · exact hh
  · exact hh
  · exact hh
  · exact ⟨hh.1, hh.2.1, ha _ hh.2.2⟩
  · exact hh.frame ha
  · exact hh.frame ha
  · exact hh.frame ha
  · exact hh

theorem Upload.Sound.totalSize_eq_zero {u : Upload} {bytes : Bytes}
    (h : u.Sound blake3 d bytes) (hcount : u.Counted) (hpc : u.pc = .next)
    (hrest : u.rest = []) : u.totalSize = 0 ↔ bytes = [] := by
  obtain ⟨-, hprog, hh⟩ := h
  simp only [Upload.Healthy, hpc] at hh
  simp only [Upload.Progress, hpc, hrest] at hprog
  have hw := hprog hh
  rw [List.flatten_nil, List.append_nil] at hw
  simp only [Upload.Counted, Upload.current, hpc, hw, List.flatten_nil, List.length_nil] at hcount
  rw [← List.length_eq_zero_iff]
  omega

/-- The commit finds the records it counts, and is that of the stream's manifest. -/
theorem Upload.Sound.commits {u : Upload} {bytes : Bytes} {m : ManifestRecord}
    (h : u.Sound blake3 d bytes) (hcount : u.Counted) (hv : d.validManifests)
    (hpc : u.pc = .commit m) :
    m.manifestID = blake3 bytes ∧ ∃ d', commitManifestAndChunkRefs d m = .ok d' ∧
      d'.active (blake3 bytes) := by
  obtain ⟨hok, hprog, -⟩ := h
  simp only [Upload.Ok, Upload.Progress, Upload.Counted, hpc] at hok hprog hcount
  obtain ⟨d', hc⟩ := commit_total hcount.1 (fun e he => hv _ e he)
    fun k hk => (hok.2 k (hok.1 ▸ hk)).1
  exact ⟨hprog, d', hc, (commit_active hcount.2 hc _).2 (.inr hprog.symm)⟩

/-- **An upload's own steps meet with no error.** -/
theorem Upload.Healthy.step {u u' : Upload} {bytes : Bytes} (h : u.Sound blake3 d bytes)
    (hcount : u.Counted) (hv : d.validManifests)
    (hs : uploadStep blake3 d s t u (.go now) = some (d', s', u')) :
    u'.Healthy blake3 d' bytes := by
  have hh := h.healthy
  cases hpc : u.pc with
  | next =>
    simp only [Upload.Healthy, hpc] at hh
    simp only [uploadStep, hpc, hh] at hs
    split at hs
    · cases hs; rfl
    · next he => cases he
    · next hrest _ =>
      have hempty := h.totalSize_eq_zero hcount hpc hrest
      split at hs
      · next hsize => cases hs; exact ⟨hempty.1 hsize, rfl⟩
      · next hsize => cases hs; exact fun hb => hsize (hempty.2 hb)
  | touchLock c =>
    simp only [uploadStep, hpc] at hs
    obtain ⟨l, -, he⟩ := Option.map_eq_some_iff.1 hs
    cases he
    simpa only [Upload.Healthy, hpc] using hh
  | getChunk c | stat c =>
    simp only [uploadStep, hpc] at hs
    split at hs <;> cases hs <;> simpa only [Upload.Healthy, hpc] using hh
  | persist c found =>
    simp only [uploadStep, hpc] at hs
    cases hs
    simp only [Upload.Healthy, hpc] at hh
    cases found <;> exact hh
  | register | putRecord c | mark c created =>
    simp only [uploadStep, hpc] at hs
    cases hs
    simpa only [Upload.Healthy, hpc] using hh
  | commitLock m =>
    simp only [uploadStep, hpc] at hs
    obtain ⟨l, -, he⟩ := Option.map_eq_some_iff.1 hs
    cases he
    simpa only [Upload.Healthy, hpc] using hh
  | commit m =>
    simp only [Upload.Healthy, hpc] at hh
    obtain ⟨hid, d1, hc, hactive⟩ := h.commits hcount hv hpc
    simp only [uploadStep, hpc, hc] at hs
    cases hs
    exact ⟨hh, hid, hactive⟩
  | finish m =>
    simp only [Upload.Healthy, hpc] at hh
    simp only [uploadStep, hpc] at hs
    cases hs
    simp only [Upload.Healthy, Disk.Uploaded, if_neg hh.1]
    exact ⟨⟨_, rfl, hh.2.1⟩, hh.2.2⟩
  | failed e =>
    simp only [Upload.Healthy, hpc] at hh
    simp only [uploadStep, hpc] at hs
    cases hs
    simp only [Upload.Healthy, Disk.Uploaded, if_pos hh.1, hh.2]
  | unregisterLock r =>
    simp only [uploadStep, hpc] at hs
    obtain ⟨l, -, he⟩ := Option.map_eq_some_iff.1 hs
    cases he
    simpa only [Upload.Healthy, hpc] using hh
  | unregister r =>
    simp only [uploadStep, hpc] at hs
    cases hs
    simpa only [Upload.Healthy, hpc] using hh
  | done r =>
    simp only [uploadStep, hpc] at hs
    cases hs

theorem Upload.Sound.step {u u' : Upload} {bytes : Bytes} (h : u.Sound blake3 d bytes)
    (hcount : u.Counted) (hv : d.validManifests)
    (hs : uploadStep blake3 d s t u (.go now) = some (d', s', u')) :
    u'.Sound blake3 d' bytes :=
  ⟨h.ok.step hs, h.progress.step hs, .step h hcount hv hs⟩

/-! ## How far a call has got -/

theorem UploadCall.pc_done {c : UploadCall} {r : Except Error UploadCommitResult}
    (h : c.returned = some r) : c.upload.pc = .done r := by
  unfold returned at h
  split at h
  · next hpc => cases h; exact hpc
  · cases h

/-- A bound on the steps to the end of the call: eight for each chunk, and the commit's. -/
def Upload.rank (u : Upload) : Nat :=
  match u.pc with
  | .register => 8 * u.rest.length + 8
  | .next => 8 * u.rest.length + 7
  | .touchLock _ => 8 * u.rest.length + 14
  | .getChunk _ => 8 * u.rest.length + 13
  | .stat _ => 8 * u.rest.length + 12
  | .persist .. => 8 * u.rest.length + 11
  | .putRecord _ => 8 * u.rest.length + 10
  | .mark .. => 8 * u.rest.length + 9
  | .commitLock _ => 6
  | .commit _ => 5
  | .finish _ => 4
  | .failed _ => 3
  | .unregisterLock _ => 2
  | .unregister _ => 1
  | .done _ => 0

/-- A transaction takes two steps. -/
def UploadCall.rank (c : UploadCall) : Nat := 2 * c.upload.rank + c.pending.elim 1 fun _ => 0

/-- **Each step of an upload brings it nearer to its end.** -/
theorem uploadStep_rank {u u' : Upload} {k : Choice}
    (h : uploadStep blake3 d s t u k = some (d', s', u')) : u'.rank < u.rank := by
  unfold uploadStep at h
  cases k with
  | pick _ => cases h
  | fail e =>
    dsimp only at h
    split at h
    case h_11 => cases h
    all_goals
      next hpc =>
        cases h
        simp only [Upload.rank, Upload.failChunk, hpc]
        omega
  | go now =>
    dsimp only at h
    split at h
    case h_2 hpc =>
      split at h
      · next hrest =>
        cases h
        simp only [Upload.rank, hpc, hrest, List.length_cons]
        omega
      · cases h; simp only [Upload.rank, hpc]; omega
      · split at h <;> cases h <;> simp only [Upload.rank, hpc] <;> omega
    case h_3 hpc | h_9 hpc | h_13 hpc =>
      obtain ⟨l, -, he⟩ := Option.map_eq_some_iff.1 h
      cases he
      simp only [Upload.rank, hpc]
      omega
    case h_4 hpc | h_5 hpc | h_10 hpc =>
      split at h <;> cases h <;> simp only [Upload.rank, hpc] <;> omega
    case h_6 found hpc => cases found <;> cases h <;> simp [Upload.rank, hpc]
    case h_15 => cases h
    all_goals
      next hpc =>
        cases h
        simp only [Upload.rank, hpc]
        omega

/-- While nobody sweeps, an upload that has not returned can go on. -/
theorem uploadStep_go {u : Upload} (hw : s.lifecycleMu.writer = none)
    (hpc : ∀ r, u.pc ≠ .done r) (d : Disk) (t : SessionID) (now : Time) :
    ∃ r, uploadStep blake3 d s t u (.go now) = some r := by
  obtain ⟨l, locked⟩ : ∃ l, s.lifecycleMu.rlock t = some l :=
    ⟨_, if_pos (Option.isNone_iff_eq_none.2 hw)⟩
  unfold uploadStep
  dsimp only
  split
  case h_15 r hdone => exact absurd hdone (hpc r)
  case h_2 =>
    split
    · exact ⟨_, rfl⟩
    · exact ⟨_, rfl⟩
    · split <;> exact ⟨_, rfl⟩
  case h_3 | h_9 | h_13 => rw [locked]; exact ⟨_, rfl⟩
  case h_4 | h_5 | h_10 => split <;> exact ⟨_, rfl⟩
  all_goals exact ⟨_, rfl⟩

theorem Upload.txn_fail {u : Upload} {txn : StoreTxn UploadPc} (h : u.txn blake3 now = some txn)
    (d : Disk) (s : Mem) (t : SessionID) (e : Error) :
    ∃ r, uploadStep blake3 d s t u (.fail e) = some r := by
  unfold Upload.txn at h
  split at h
  · next hpc => exact ⟨_, by simp only [uploadStep, hpc]; rfl⟩
  · next hpc => exact ⟨_, by simp only [uploadStep, hpc]; rfl⟩
  · cases h

theorem uploadStep_writer {u u' : Upload} {k : Choice}
    (h : uploadStep blake3 d s t u k = some (d', s', u')) :
    s'.lifecycleMu.writer = s.lifecycleMu.writer := by
  cases uploadStep_move h with
  | fail k session pc s' hid hpc hs => rcases hs with rfl | rfl <;> rfl
  | touchLock now c l hpc hl | commitLock now c l hpc hl | unregisterLock now c l hpc hl =>
    exact (RwLock.rlock_readers hl).2.1
  | register | read | build | found | missing | inPlace | lost | persist | putRecord | mark | commit
  | finish | unregister => rfl

namespace UploadSystem

/-! ## All uploads at once -/

/-- What holds while the call `t` is not disturbed. -/
structure Inv (cfg : FastCdc.Config) (blake3 : Bytes → Hash) (t : SessionID) (y : UploadSystem) :
    Prop where
  begun : y.Begun blake3
  valid : y.disk.validManifests
  free : y.mem.lifecycleMu.writer = none
  counted : ∀ t' c, y.calls.lookup t' = some c → c.upload.Counted
  sound : ∀ c, y.calls.lookup t = some c → c.upload.Sound blake3 y.disk c.bytes

variable {t' : SessionID} {y y' : UploadSystem} {c : UploadCall} {a : UploadAction}

theorem Inv.idle (hd : d.validManifests) (t : SessionID) : (idle d).Inv cfg blake3 t :=
  ⟨begun_idle d, hd, rfl, fun _ _ h => (by cases h), fun _ h => (by cases h)⟩

theorem Inv.spawned (hy : y.Inv cfg blake3 t) (hcfg : cfg.validate = .ok ()) (t' : SessionID)
    (fileName : String) (bytes : Bytes) (now : Time) :
    (y.spawned cfg t' fileName bytes now).Inv cfg blake3 t := by
  refine ⟨spawned_begun hy.begun t' fileName bytes now, hy.valid, hy.free, fun t1 c hc => ?_,
    fun c hc => ?_⟩
  · rcases Dict.lookup_insert_cases hc with ⟨-, rfl⟩ | ⟨-, hc⟩
    · exact Upload.counted_start ..
    · exact hy.counted t1 c hc
  · rcases Dict.lookup_insert_cases hc with ⟨-, rfl⟩ | ⟨-, hc⟩
    · exact Upload.sound_start hcfg ..
    · exact (hy.sound c hc).frame (putUploadSession_grows ..) fun _ => id

theorem Inv.move (hy : y.Inv cfg blake3 t) (hc : y.calls.lookup t' = some c)
    (hcalm : t' = t → ¬ c.Conflicts y) (hm : Move blake3 y t' c y') : y'.Inv cfg blake3 t := by
  have hb := hm.begun hy.begun
  have hcount := hy.counted t' c hc
  cases hm with
  | begin now txn hp htxn =>
    refine ⟨hb, hy.valid, hy.free, fun t1 c1 hc1 => ?_, fun c1 hc1 => ?_⟩
    · rcases Dict.lookup_insert_cases hc1 with ⟨-, rfl⟩ | ⟨-, hc1⟩
      · exact hcount
      · exact hy.counted t1 c1 hc1
    · rcases Dict.lookup_insert_cases hc1 with ⟨ht, rfl⟩ | ⟨-, hc1⟩
      · exact hy.sound c (ht ▸ hc)
      · exact hy.sound c1 hc1
  | step k keys d s u hu hd hk =>
    obtain ⟨hv', ha⟩ := uploadStep_manifests hcount hu hy.valid
    refine ⟨hb, hv', (uploadStep_writer hu).trans hy.free, fun t1 c1 hc1 => ?_, fun c1 hc1 => ?_⟩
    · rcases Dict.lookup_insert_cases hc1 with ⟨-, rfl⟩ | ⟨-, hc1⟩
      · exact hcount.step hu
      · exact hy.counted t1 c1 hc1
    · rcases Dict.lookup_insert_cases hc1 with ⟨ht, rfl⟩ | ⟨-, hc1⟩
      · obtain ⟨now, rfl⟩ := hk.resolve_right fun h => hcalm ht.symm h.1
        exact (hy.sound c (ht ▸ hc)).step hcount hy.valid hu
      · exact (hy.sound c1 hc1).frame (uploadStep_disk hu).1 ha

theorem Undisturbed.calm (h : Undisturbed t y (.run t' now)) (hc : y.calls.lookup t' = some c)
    (ht : t' = t) : ¬ c.Conflicts y := by
  rintro ⟨p, hp, hconf⟩
  subst ht
  simp [Undisturbed, hc, hp, hconf] at h

theorem Inv.step (hy : y.Inv cfg blake3 t) (hcfg : cfg.validate = .ok ())
    (ha : Undisturbed t y a) (h : y.step cfg blake3 a = some y') : y'.Inv cfg blake3 t := by
  rcases step_cases hy.begun h with
    ⟨t', fileName, bytes, now, rfl, -, rfl⟩ | ⟨t', now, c, rfl, hc, hm⟩
  · exact hy.spawned hcfg t' fileName bytes now
  · exact hy.move hc (ha.calm hc) hm

/-- A bound on the steps that the calls have to go. -/
def rank (y : UploadSystem) : Nat := y.calls.sum fun _ c => c.rank

theorem Move.rank_lt {y y' : UploadSystem} {c : UploadCall} (hc : y.calls.lookup t = some c)
    (h : Move blake3 y t c y') : y'.rank < y.rank := by
  cases h with
  | begin now txn hp htxn =>
    refine Dict.sum_insert_lt hc ?_
    simp only [UploadCall.rank, hp, Option.elim_none, Option.elim_some]
    omega
  | step k keys d s u hu hd hk =>
    refine Dict.sum_insert_lt hc ?_
    have hlt := uploadStep_rank hu
    simp only [UploadCall.rank, Option.elim_none]
    cases c.pending <;> simp only [Option.elim_none, Option.elim_some] <;> omega

/-- While nobody sweeps, a call that has not returned can go on. -/
theorem run_enabled {y : UploadSystem} {c : UploadCall} (hb : c.Begun blake3 y)
    (hw : y.mem.lifecycleMu.writer = none) (hpc : ∀ r, c.upload.pc ≠ .done r) (t : SessionID)
    (now : Time) : ∃ y', y.run blake3 t c now = some y' := by
  unfold run
  split
  · split
    · exact ⟨_, rfl⟩
    · obtain ⟨r, hr⟩ := @uploadStep_go blake3 _ _ hw hpc y.disk t now
      exact ⟨_, by rw [plain, hr]; rfl⟩
  · next p hp =>
    obtain ⟨now', txn, htxn, -⟩ := hb p hp
    split
    · next e _ =>
      obtain ⟨r, hr⟩ := Upload.txn_fail htxn y.disk y.mem t e
      exact ⟨_, by rw [plain, hr]; rfl⟩
    · exact ⟨_, rfl⟩

/-- **An upload fails with no other, unless a transaction of its own is refused.** Of any uploads on
one store, in any interleaving in which no transaction of the call `t` comes to its commit after a
key that it has read was written: if the call has returned, it has returned its result and its
manifest is stored, or the stream was empty; if not, it has a step to take, which brings the end of
all calls nearer. -/
theorem upload_succeeds (hcfg : cfg.validate = .ok ()) (hd : d.validManifests)
    (h : Runs.Reach (step cfg blake3) (Undisturbed t) (· = .idle d) y)
    (hc : y.calls.lookup t = some c) :
    (∀ r, c.returned = some r →
      if c.bytes = [] then r = .error emptyUpload
      else ∃ res m, r = .ok res ∧ res.manifestID = blake3 c.bytes ∧
        getManifest y.disk (blake3 c.bytes) = .ok m ∧ m.retired = false) ∧
    (c.returned = none → ∀ now, ∃ y', y.step cfg blake3 (.run t now) = some y' ∧
      y'.rank < y.rank) := by
  have hy : y.Inv cfg blake3 t := h.inv (fun y he => he ▸ .idle hd t)
    fun y a y' hy ha hs => hy.step hcfg ha hs
  constructor
  · intro r hr
    have hh := (hy.sound c hc).healthy
    simp only [Upload.Healthy, UploadCall.pc_done hr, Disk.Uploaded] at hh
    split
    · next he => rwa [if_pos he] at hh
    · next he =>
      rw [if_neg he] at hh
      obtain ⟨⟨res, rfl, hid⟩, m, hm, hret⟩ := hh
      exact ⟨res, m, rfl, hid, getManifest_ok.2 ⟨hm, hy.valid _ m hm⟩, hret⟩
  · intro hret now
    have hpc : ∀ r, c.upload.pc ≠ .done r := fun r hr => by simp [UploadCall.returned, hr] at hret
    obtain ⟨y', hy'⟩ := run_enabled (hy.begun t c hc) hy.free hpc t now
    exact ⟨y', by rw [UploadSystem.step, hc, Option.bind_some, hy'],
      (run_move (hy.begun t c hc) hy').rank_lt hc⟩

/-- `n` steps of a call, all at one time. -/
def runs (t : SessionID) (n : Nat) (now : Time) : List UploadAction := List.replicate n (.run t now)

/-- Two uploads of one stream; the second comes to its first transaction when that of the first has
committed. -/
def inTurn : List UploadAction :=
  [.processUpload 1 "a.bin" [7] 5, .processUpload 2 "b.bin" [7] 5] ++ runs 1 7 6 ++ runs 2 8 7 ++
    runs 1 8 8 ++ runs 2 5 9

theorem upload_succeeds_sample : ∃ y c res m,
    Runs.Reach (step (sampleConfig 1) sampleHash) (Undisturbed 2) (· = idle .empty) y ∧
      y.calls.lookup 2 = some c ∧ c.returned = some (.ok res) ∧
      res.manifestID = sampleHash c.bytes ∧
      getManifest y.disk (sampleHash c.bytes) = .ok m ∧ m.retired = false := by
  have run : (Runs.exec (Runs.guarded (step (sampleConfig 1) sampleHash) (Undisturbed 2))
      (idle .empty) inTurn).any (fun y => (y.calls.lookup 2).any fun c => c.returned.isSome &&
        decide (c.bytes ≠ [])) = true := by decide
  obtain ⟨y, hy, hc⟩ := (Option.any_eq_true _ _).1 run
  obtain ⟨c, hc, hr⟩ := (Option.any_eq_true _ _).1 hc
  obtain ⟨hr, hne⟩ := Bool.and_eq_true_iff.1 hr
  obtain ⟨r, hr⟩ := Option.isSome_iff_exists.1 hr
  have hreach : Runs.Reach (step (sampleConfig 1) sampleHash) (Undisturbed 2)
      (· = idle .empty) y := .exec_guarded (.init rfl) hy
  have hvalid : Disk.empty.validManifests := fun _ _ hm => by cases hm
  have hret := (upload_succeeds rfl hvalid hreach hc).1 r hr
  rw [if_neg (of_decide_eq_true hne)] at hret
  obtain ⟨res, m, rfl, hid, hm, hret⟩ := hret
  exact ⟨y, c, res, m, hreach, hc, hr, hid, hm, hret⟩

/-- Every call that has returned has returned its result. -/
def AllSucceed (y : UploadSystem) : Prop :=
  ∀ t c r, y.calls.lookup t = some c → c.returned = some r → ∃ res, r = .ok res

/-- Two uploads of one stream; the transactions that store the chunk's record overlap. -/
def overlapping : List UploadAction :=
  [.processUpload 1 "a.bin" [7] 5, .processUpload 2 "b.bin" [7] 5] ++ runs 1 6 6 ++ runs 2 6 6 ++
    runs 1 1 7 ++ runs 2 4 8

/-- An upload of an empty stream while another is on its way. -/
def besideEmpty : List UploadAction :=
  [.processUpload 1 "a.bin" [7] 5, .processUpload 2 "b.bin" [] 5] ++ runs 1 4 6 ++ runs 2 5 6

/-- The second upload returns an error: that of an empty stream, and a conflict. -/
theorem second_upload_fails :
    (¬ ∀ y, Runs.exec (step (sampleConfig 1) sampleHash) (idle .empty) besideEmpty = some y →
      y.AllSucceed) ∧
    ¬ ∀ y, Runs.exec (step (sampleConfig 1) sampleHash) (idle .empty) overlapping = some y →
      y.AllSucceed := by
  have fails : ∀ as, (Runs.exec (step (sampleConfig 1) sampleHash) (idle .empty) as).any
      (fun y => (y.calls.lookup 2).any fun c => c.returned.any fun r => r.toOption.isNone) =
        true →
      ¬ ∀ y, Runs.exec (step (sampleConfig 1) sampleHash) (idle .empty) as = some y →
        y.AllSucceed := by
    intro as run h
    obtain ⟨y, hy, hc⟩ := (Option.any_eq_true _ _).1 run
    obtain ⟨c, hc, hr⟩ := (Option.any_eq_true _ _).1 hc
    obtain ⟨r, hr, herr⟩ := (Option.any_eq_true _ _).1 hr
    obtain ⟨res, rfl⟩ := h y hy 2 c r hc hr
    cases herr
  exact ⟨fails _ (by decide), fails _ (by decide)⟩

end UploadSystem

end HashBox.Vault
