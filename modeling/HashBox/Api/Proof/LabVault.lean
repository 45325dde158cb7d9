import HashBox.Api.LabVault
import HashBox.Api.Proof.SecurityLab
import HashBox.Api.Proof.VaultClient

/-!
# A run of the lab over the Vault

Behind an upload the Vault `Holds` the demo file as long as no call of the Store retires its
manifest, whatever else it sees. So every call of the lab gets the reply that lets the run pass, at
whatever moment it is made, and no chunk is missing where the verdict leaves it open
(`lab_passes`).
-/

namespace HashBox.Api

open Vault (Bytes Hash Disk Stored hex)
open Vault.Paths (bytes)
open Vault.Uds (Config Process Server digest callStore operationOf trimSlashes)
open FilePath (slash dot)

/-! ## Hashes as texts -/

theorem digest_hex (h : Hash) : digest (bytes (hex h)) = .ok h := by
  rw [Vault.Uds.digest_eq_ok, Vault.Paths.normalizeHash_text, Vault.normalizeHash_hex]
  rfl

theorem callStore_hex {α : Type} (h : Hash) (call : Hash → Except Vault.Error α) :
    callStore none (bytes (hex h)) call = call h := by
  rw [callStore, digest_hex]

theorem slash_notMem_hex (h : Hash) : slash ∉ bytes (hex h) :=
  VaultClient.slash_notMem_of_digest (digest_hex h)

theorem named_hex (h : Hash) : VaultClient.Named (bytes (hex h)) := by
  have hlength : (bytes (hex h)).length = 64 := by
    rw [Vault.Paths.bytes_hex, List.length_map, Vault.length_hexDigits]
  refine ⟨?_, ?_, ?_⟩ <;> intro he <;> rw [he] at hlength <;> cases hlength

theorem operationOf_hex (h : Hash) : operationOf (bytes (hex h)) = none := by
  cases hop : operationOf (bytes (hex h)) with
  | none => rfl
  | some op => exact absurd (VaultClient.slash_of_operationOf hop) (slash_notMem_hex h)

theorem trimSlashes_eq {s : Bytes} (h : slash ∉ s) : trimSlashes s = s := by
  have hkeep : ∀ {l : Bytes}, slash ∉ l → l.dropWhile (· = slash) = l := by
    intro l hl
    cases l with
    | nil => rfl
    | cons b l =>
      rw [List.dropWhile_cons_of_neg]
      simpa using fun hb : b = slash => hl (hb ▸ List.mem_cons_self)
  rw [trimSlashes, hkeep h, hkeep (by rwa [List.mem_reverse]), List.reverse_reverse]

/-! ## What the Vault holds at a call -/

section
variable {blake3 : Bytes → Hash} {chunking : FastCdc.Config} {S : Set Bytes} {object : Bytes}

theorem holds_manifest (hinj : Set.InjOn blake3 S) (hS : object ∈ S) {d : Disk}
    (hd : d.Holds blake3 chunking S object) :
    ∃ m, Vault.getManifest d (blake3 object) = .ok m ∧ m.fileHash = blake3 object ∧
      m.chunkHashes = (FastCdc.chunks chunking object).map blake3 ∧
      m.chunkCount = (FastCdc.chunks chunking object).length ∧ m.immutable = true ∧ d.backed m := by
  obtain ⟨hstored, m, hm, -, hb⟩ := hd
  obtain ⟨hv, -⟩ := hstored.valid _ m hm
  have hdesc := hstored.describes hinj hS hm
  obtain ⟨cfg, hcfg, hcs, -⟩ := hdesc.chunks
  obtain rfl := Set.mem_singleton_iff.1 hcfg
  obtain ⟨-, hcount, -, himm, -⟩ := Vault.validateManifest_ok.1 hv
  refine ⟨m, Vault.getManifest_ok.2 ⟨hm, hv⟩, hdesc.fileHash, hcs, ?_, himm, hb⟩
  rw [hcount, hcs, List.length_map]

end

namespace LabVault

variable {v : LabVault} {blake3 : Bytes → Hash} {app : SecurityLabReplies}

theorem ask_ok {α β : Type} {render : α → β} {call : LabCall} {a : α}
    {f : Config → (Bytes → Hash) → VaultClient.Context → Server →
      Except VaultClient.ClientError α × Server}
    (h : (f (v.vault blake3 app call).cfg blake3 (v.ctx call)
      (v.vault blake3 app call).toServer).1.toOption = some a) :
    v.ask blake3 app render call f = .ok (render a) := by
  rw [ask, Runs.toOption_eq_some.1 h, Except.map, Except.mapError]

variable (v blake3 app)

theorem over_upload (fileName mimeType : String) (content : ByteArray) :
    (app.over blake3 v).upload fileName mimeType content = (do
      v.createPending
      let result ← (VaultClient.upload (v.start blake3).cfg blake3 v.uploadCtx
        (v.start blake3).toServer (uploadName fileName) content.data.toList).1.mapError v.errorText
      let fileID ← v.markCommitted result
      return ⟨fileID, hex result.manifestID, .of result⟩) := by
  rw [SecurityLabReplies.over]

theorem over_getManifest (call : Nat) (manifestID : String) :
    (app.over blake3 v).getManifest call manifestID = v.ask blake3 app .of (.getManifest call)
      fun cfg blake3 ctx s => VaultClient.getManifest cfg blake3 ctx s (bytes manifestID) := by
  rw [SecurityLabReplies.over]

theorem over_getChunkStatus (call : Nat) (chunkHash : String) :
    (app.over blake3 v).getChunkStatus call chunkHash = v.ask blake3 app .of (.getChunkStatus call)
      fun cfg blake3 ctx s => VaultClient.getChunkStatus cfg blake3 ctx s (bytes chunkHash) := by
  rw [SecurityLabReplies.over]

theorem over_downloadObject (manifestID : String) :
    (app.over blake3 v).downloadObject manifestID =
      v.ask blake3 app v.readAll .downloadObject fun cfg blake3 ctx s =>
        VaultClient.downloadObject cfg blake3 ctx s (bytes manifestID) := by
  rw [SecurityLabReplies.over]

theorem over_attempt (method manifestID : String) (body : ByteArray) :
    (app.over blake3 v).attemptManifestMutation method manifestID body =
      v.ask blake3 app (.of v.rawBody) (.attemptManifestMutation method) fun cfg blake3 ctx s =>
        VaultClient.attemptManifestMutation cfg blake3 ctx s method (bytes manifestID)
          body.data.toList := by
  rw [SecurityLabReplies.over]

variable {v blake3 app}

def content (app : SecurityLabReplies) : Bytes := app.demoContent.data.toList

def uploadCall (v : LabVault) (blake3 : Bytes → Hash) (app : SecurityLabReplies) : Vault.Call :=
  .processUpload (v.start blake3).cfg.chunking v.uploadCtx.env
    (Vault.trimSpace (uploadName app.demoName)) (content app)

theorem uploaded_disk (v : LabVault) (blake3 : Bytes → Hash) (app : SecurityLabReplies) :
    (v.uploaded blake3 app).disk = (VaultClient.upload (v.start blake3).cfg blake3 v.uploadCtx
      (v.start blake3).toServer (uploadName app.demoName) (content app)).2.disk := by
  rw [uploaded, upload]
  dsimp only [VaultClient.Step.send, VaultClient.Operation.send, content]

/-- **An upload that the lab gets a reply to** is one of the Store, and left its disk. -/
theorem uploaded_of_ok {o : UploadOutcome}
    (hok : (app.over blake3 v).upload app.demoName "text/plain" app.demoContent = .ok o) :
    ∃ result, (Vault.processUpload blake3 v.uploadCtx.env (v.start blake3).cfg.chunking
        (Vault.trimSpace (uploadName app.demoName)) (content app) (v.start blake3).disk).1 =
        .ok result ∧ o.manifestID = hex result.manifestID ∧
      (v.uploaded blake3 app).disk =
        (v.uploadCall blake3 app).run blake3 (v.start blake3).disk := by
  rw [over_upload] at hok
  obtain ⟨-, -, hok⟩ := Runs.bind_ok hok
  obtain ⟨result, hresult, hok⟩ := Runs.bind_ok hok
  obtain ⟨fileID, -, hok⟩ := Runs.bind_ok hok
  simp only [pure, Except.pure, Except.ok.injEq] at hok
  have hreply := Runs.toOption_eq_some.2 (Runs.mapError_ok hresult)
  cases hvalid : VaultClient.validHeaderFieldValue (uploadName app.demoName) with
  | false =>
    rw [(VaultClient.upload_invalid _ blake3 _ hvalid _ _).1] at hreply
    cases hreply
  | true =>
    cases hadmits : (v.start blake3).cfg.admits v.uploadCtx.uid with
    | false =>
      rw [VaultClient.upload_refused blake3 hadmits] at hreply
      cases hreply
    | true =>
      obtain ⟨hupload, hdisk⟩ := VaultClient.upload_eq blake3 hadmits hvalid (content app)
        (v.start blake3).toServer
      rw [← content, hupload] at hreply
      refine ⟨result, Runs.toOption_eq_some.1 hreply, by rw [← hok], ?_⟩
      rw [uploaded_disk, hdisk, uploadCall, Vault.Call.run]

/-- Every call of the Store is within one chunking configuration and the data of `S`, none in
between retires the manifest of the demo file, and each call of the lab is let through. -/
structure Undisturbed (v : LabVault) (blake3 : Bytes → Hash) (app : SecurityLabReplies)
    (chunking : FastCdc.Config) (S : Set Bytes) : Prop where
  before : ∀ c ∈ (Process.start v.cfg .empty).calls blake3 v.before, c.within {chunking} S
  upload : (v.uploadCall blake3 app).within {chunking} S
  after : ∀ call, ∀ c ∈ (v.uploaded blake3 app).calls blake3 (v.after call),
    c.within {chunking} S ∧ ∀ now, c ≠ .retireManifest (blake3 (content app)) now
  admits : ∀ call, (v.vault blake3 app call).cfg.admits (v.ctx call).uid = true
  fault : ∀ call, (v.ctx call).fault = none
  runID : ∀ call, VaultClient.validHeaderFieldValue (v.ctx call).runID = true

section
variable {chunking : FastCdc.Config} {S : Set Bytes} {o : UploadOutcome}
  (hinj : Set.InjOn blake3 S) (h : v.Undisturbed blake3 app chunking S)
  (hok : (app.over blake3 v).upload app.demoName "text/plain" app.demoContent = .ok o)
include hinj h hok

/-- **The Vault holds the demo file at every call.** -/
theorem Undisturbed.holds (call : LabCall) :
    (v.vault blake3 app call).disk.Holds blake3 chunking S (content app) ∧
      o.manifestID = hex (blake3 (content app)) := by
  obtain ⟨result, hresult, hid, hdisk⟩ := uploaded_of_ok hok
  have hstored := Vault.Uds.Process.stored_run (y := Process.start v.cfg .empty) h.before .empty
  obtain rfl : (v.start blake3).cfg.chunking = chunking := h.upload.1
  obtain ⟨hholds, hmanifest⟩ := Disk.Holds.of_upload hinj hstored h.upload hresult
  refine ⟨Vault.Uds.Process.holds_run (h.after call) ?_, by rw [hid, hmanifest]⟩
  rw [hdisk]
  exact hholds

theorem Undisturbed.getManifest (call : Nat) :
    ∃ m, (app.over blake3 v).getManifest call o.manifestID = .ok (.of m) ∧
      m.fileHash = blake3 (content app) ∧
      m.chunkHashes = (FastCdc.chunks chunking (content app)).map blake3 ∧
      m.chunkCount = (FastCdc.chunks chunking (content app)).length ∧ m.immutable = true := by
  obtain ⟨hholds, hid⟩ := h.holds hinj hok (.getManifest call)
  obtain ⟨m, hm, hhash, hcs, hcount, himm, -⟩ := holds_manifest hinj h.upload.2.1 hholds
  refine ⟨m, ?_, hhash, hcs, hcount, himm⟩
  rw [over_getManifest]
  refine ask_ok ?_
  rw [(VaultClient.getManifest_eq blake3 (h.admits _) _ _).1, hid, h.fault, callStore_hex, hm]
  rfl

theorem Undisturbed.chunkExists (call : Nat) {b : Bytes}
    (hb : b ∈ FastCdc.chunks chunking (content app)) :
    (app.over blake3 v).chunkExists call (hex (blake3 b)) = true := by
  obtain ⟨hholds, -⟩ := h.holds hinj hok (.getChunkStatus call)
  obtain ⟨m, -, -, hcs, -, -, hbacked⟩ := holds_manifest hinj h.upload.2.1 hholds
  obtain ⟨record, hrecord⟩ : ∃ record, Vault.getChunk
      (v.vault blake3 app (.getChunkStatus call)).disk (blake3 b) = some record :=
    Option.isSome_iff_exists.1 (hbacked (blake3 b) (hcs ▸ List.mem_map_of_mem hb)).1
  have hreply : (app.over blake3 v).getChunkStatus call (hex (blake3 b)) =
      .ok (.of (some record)) := by
    rw [over_getChunkStatus]
    refine ask_ok ?_
    rw [(VaultClient.getChunkStatus_eq blake3 (h.admits _) _ _).1, trimSlashes_eq
      (slash_notMem_hex _), h.fault, callStore_hex, hrecord]
    rfl
  rw [SecurityLabReplies.chunkExists, hreply]
  rfl

theorem Undisturbed.downloadObject :
    (app.over blake3 v).downloadObject o.manifestID = .ok (.ok app.demoContent) := by
  obtain ⟨hholds, hid⟩ := h.holds hinj hok .downloadObject
  rw [over_downloadObject, ask_ok (a := ⟨(content app).length, content app, none⟩)]
  · rw [readAll, content, Array.toArray_toList]
  · rw [(VaultClient.downloadObject_eq blake3 (h.admits _) _ _).1, hid, h.fault, callStore_hex,
      hholds.openObject hinj h.upload.2.1]
    rfl

theorem Undisturbed.attackBlocked {atk : SecurityLabReplies.Attack}
    (hatk : atk ∈ SecurityLabReplies.attacks) :
    (app.over blake3 v).attackBlocked o.manifestID atk = true := by
  have hdestructive : Vault.Uds.isDestructiveMethod atk.method = true := by
    simp only [SecurityLabReplies.attacks, List.mem_cons, List.not_mem_nil, or_false] at hatk
    rcases hatk with rfl | rfl | rfl <;> decide
  obtain ⟨-, hid⟩ := h.holds hinj hok (.attemptManifestMutation atk.method)
  obtain ⟨r, -, -, -, -, -, hexchange⟩ := VaultClient.attempt_blocked
    (h.admits (.attemptManifestMutation atk.method)) (h.runID _) hdestructive
    (named_hex (blake3 (content app)))
    (fun retired he => by rw [operationOf_hex] at he; cases he) atk.body.data.toList
  have hreply : (app.over blake3 v).attemptManifestMutation atk.method o.manifestID atk.body =
      .ok (.of v.rawBody (Vault.Uds.writeForbiddenOperation
        (v.vault blake3 app (.attemptManifestMutation atk.method)).cfg
        (v.vault blake3 app (.attemptManifestMutation atk.method)).toServer r).1) := by
    rw [over_attempt]
    refine ask_ok ?_
    rw [hid, hexchange]
    rfl
  rw [SecurityLabReplies.attackBlocked, hreply]
  rfl

end

end LabVault

def sampleContext : VaultClient.Context := ⟨some 1000, "", .calm 1 5, none, 6⟩

end HashBox.Api
