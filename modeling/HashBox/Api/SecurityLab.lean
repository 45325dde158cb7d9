import Mathlib

/-!
# The Security Lab (`internal/service/securitylab_service.go`)

`Run` and the two accounts it gives: the events it emits and the summary it returns. The replies of
the file operations and of the Vault are a `SecurityLabReplies`; those of the functions called more
than once also depend on which call it is. What the recorder is told has no influence on the run and
is left out, and so are the times of the events.
-/

namespace HashBox.Api

/-! ## What the calls return (`internal/vaultclient/uds.go`) -/

namespace Vaultclient

structure UploadCommitResult where
  fileHash : String
  chunkCount : Int
  dedupRatio : Rat
  immutable : Bool

structure ManifestRecord where
  manifestID : String
  fileHash : String
  chunkHashes : List String
  totalSizeBytes : Int
  chunkCount : Int
  immutable : Bool

/-- `exists` and the size in the chunk's record. -/
structure ChunkStatusResponse where
  «exists» : Bool
  sizeBytes : Int

structure MutationAttempt where
  statusCode : Int
  /-- `Error.Code` -/
  errorCode : String
  rawBody : String

def MutationAttempt.blocked (m : MutationAttempt) : Bool :=
  m.statusCode == 403 && m.errorCode == "operation_forbidden"

end Vaultclient

open Vaultclient

/-- `UploadOutcome`, with the id and the manifest id of its `File`. -/
structure UploadOutcome where
  fileID : String
  manifestID : String
  uploadCommitResult : Vaultclient.UploadCommitResult

/-- The replies; an error is given by its text. -/
structure SecurityLabReplies where
  newSecurityRunID : Except String String
  /-- `time.Now().UnixNano()` and the time in RFC 3339, as texts -/
  nowUnixNano : String
  nowRFC3339Nano : String
  upload : (fileName mimeType : String) → (content : ByteArray) → Except String UploadOutcome
  softDelete : (fileID : String) → Except String Unit
  permanentDelete : (fileID : String) → Except String Unit
  detail : (fileID : String) → Except String Unit
  getManifest : (call : Nat) → (manifestID : String) → Except String Vaultclient.ManifestRecord
  getChunkStatus : (call : Nat) → (chunkHash : String) → Except String ChunkStatusResponse
  attemptManifestMutation : (method manifestID : String) → (body : ByteArray) →
    Except String MutationAttempt
  /-- the body is what reading it to its end gives -/
  downloadObject : (manifestID : String) → Except String (Except String ByteArray)
  sha256Hex : ByteArray → String

/-! ## Events and summary -/

inductive SecurityPhase
  | before
  | attackApp
  | proof
  | attackUDS
  | after
deriving DecidableEq, Repr

inductive SecurityStatus
  | info
  | ok
  | blocked
  | breach
deriving DecidableEq, Repr

/-- A value in the data of an event. -/
inductive LabValue
  | text (s : String)
  | texts (l : List String)
  | int (n : Int)
  | ratio (q : Rat)
  | bool (b : Bool)
deriving DecidableEq, Repr

structure SecurityLabEvent where
  runID : String
  phase : SecurityPhase
  step : String
  status : SecurityStatus
  title : String
  detail : String
  data : List (String × LabValue)
deriving DecidableEq, Repr

structure SecurityLabSummary where
  runID : String := ""
  manifestID : String := ""
  demoFileName : String := ""
  fileHashBefore : String := ""
  fileHashAfter : String := ""
  chunkCountBefore : Int := 0
  chunkCountAfter : Int := 0
  immutableBefore : Bool := false
  immutableAfter : Bool := false
  appLayerCompromised : Bool := false
  vaultManifestIntact : Bool := false
  chunksVerified : Nat := 0
  udsAttacksAttempted : Nat := 0
  udsAttacksBlocked : Nat := 0
  reconstructionIdentical : Bool := false
  contentHashBefore : String := ""
  contentHashAfter : String := ""
  passed : Bool := false
deriving DecidableEq, Repr

namespace SecurityLabSummary

/-- The conjunction that `Passed` is set to. -/
def verdict (s : SecurityLabSummary) : Bool :=
  s.appLayerCompromised && s.vaultManifestIntact && decide (s.udsAttacksAttempted > 0) &&
    s.udsAttacksBlocked == s.udsAttacksAttempted && s.reconstructionIdentical &&
    s.fileHashBefore == s.fileHashAfter && s.chunkCountBefore == s.chunkCountAfter &&
    s.immutableAfter

/-- The data of the last event. -/
def data (s : SecurityLabSummary) : List (String × LabValue) :=
  [("manifest_id", .text s.manifestID), ("file_hash_before", .text s.fileHashBefore),
    ("file_hash_after", .text s.fileHashAfter), ("chunk_count_before", .int s.chunkCountBefore),
    ("chunk_count_after", .int s.chunkCountAfter), ("immutable_after", .bool s.immutableAfter),
    ("app_layer_compromised", .bool s.appLayerCompromised),
    ("vault_manifest_intact", .bool s.vaultManifestIntact),
    ("uds_attacks_attempted", .int s.udsAttacksAttempted),
    ("uds_attacks_blocked", .int s.udsAttacksBlocked),
    ("reconstruction_identical", .bool s.reconstructionIdentical), ("passed", .bool s.passed)]

end SecurityLabSummary

/-- A run so far. -/
structure SecurityLabRun where
  events : List SecurityLabEvent
  summary : SecurityLabSummary
deriving DecidableEq, Repr

def SecurityLabRun.send (s : SecurityLabRun) (phase : SecurityPhase) (step : String)
    (status : SecurityStatus) (title detail : String) (data : List (String × LabValue)) :
    SecurityLabRun :=
  { s with events := s.events ++ [⟨s.summary.runID, phase, step, status, title, detail, data⟩] }

/-- What a phase returns; an error ends the run. -/
abbrev LabResult := Except (SecurityLabRun × String)

/-! ## The phases -/

namespace SecurityLabReplies

variable (r : SecurityLabReplies)

def demoName : String := "ransomware_demo_" ++ r.nowUnixNano ++ ".txt"

def demoContent : ByteArray :=
  ("HashBox Security Lab — berkas demo uji mitigasi ransomware.\n" ++
    "Dibuat: " ++ r.nowRFC3339Nano ++
    "\nKonten ini sengaja dibuat untuk diserang dan dibuktikan tetap utuh.\n").toUTF8

/-- Phase 0: the upload, and the manifest as it is before the attacks. -/
def phaseBefore (s : SecurityLabRun) : LabResult (UploadOutcome × SecurityLabRun) :=
  let hash := r.sha256Hex r.demoContent
  let s := { s with summary := { s.summary with
    demoFileName := r.demoName, contentHashBefore := hash } }
  let s := s.send .before "create_demo_file" .info "Menyiapkan berkas demo"
    "Membuat berkas throwaway khusus simulasi, tanpa menyentuh data asli pengguna."
    [("file_name", .text r.demoName), ("size_bytes", .int r.demoContent.size),
      ("local_sha256", .text hash)]
  match r.upload r.demoName "text/plain" r.demoContent with
  | .error e =>
    .error (s.send .before "upload" .breach "Gagal mengunggah berkas demo" e [],
      "security lab: upload demo file: " ++ e)
  | .ok outcome =>
    let result := outcome.uploadCommitResult
    let s := { s with summary := { s.summary with manifestID := outcome.manifestID } }
    let s := s.send .before "upload" .ok "Berkas demo tersimpan di HashBox"
      ("Berkas diunggah melalui jalur normal: metadata di PostgreSQL, " ++
        "konten fisik di Vault Core.")
      [("file_id", .text outcome.fileID), ("manifest_id", .text outcome.manifestID),
        ("chunk_count", .int result.chunkCount), ("file_hash", .text result.fileHash),
        ("dedup_ratio", .ratio result.dedupRatio), ("immutable", .bool result.immutable)]
    match r.getManifest 0 outcome.manifestID with
    | .error e =>
      .error (s.send .before "read_manifest" .breach "Gagal membaca manifest awal" e [],
        "security lab: read manifest before: " ++ e)
    | .ok m =>
      let s := { s with summary := { s.summary with
        fileHashBefore := m.fileHash
        chunkCountBefore := m.chunkCount
        immutableBefore := m.immutable } }
      let s := s.send .before "record_state" .info "Merekam state awal dari Vault Core"
        ("Nilai-nilai ini diambil langsung dari Vault Core dan menjadi acuan pembanding " ++
          "di akhir.")
        [("manifest_id", .text m.manifestID), ("file_hash", .text m.fileHash),
          ("chunk_count", .int m.chunkCount), ("immutable", .bool m.immutable),
          ("total_bytes", .int m.totalSizeBytes), ("chunk_hashes", .texts m.chunkHashes)]
      .ok (outcome, s)

/-- Phase 1: the file is deleted in the application. -/
def phaseAttackApp (fileID : String) (s : SecurityLabRun) : LabResult SecurityLabRun :=
  let s := s.send .attackApp "intro" .info "Skenario: penyerang menguasai lapisan aplikasi"
    ("Penyerang memegang token sah dan mencoba menghancurkan berkas seperti ransomware: " ++
      "hapus dari aplikasi.") []
  match r.softDelete fileID with
  | .error e =>
    .error (s.send .attackApp "soft_delete" .breach "Soft delete gagal" e [],
      "security lab: soft delete: " ++ e)
  | .ok () =>
    let s := s.send .attackApp "soft_delete" .ok "Berkas dipindahkan ke Sampah (soft delete)"
      "Metadata ditandai terhapus pada lapisan aplikasi." [("file_id", .text fileID)]
    match r.permanentDelete fileID with
    | .error e =>
      .error (s.send .attackApp "permanent_delete" .breach "Permanent delete gagal" e [],
        "security lab: permanent delete: " ++ e)
    | .ok () =>
      let s := s.send .attackApp "permanent_delete" .ok
        "Metadata dihapus permanen dari PostgreSQL"
        "Serangan lapisan aplikasi berhasil: catatan berkas hilang dari database."
        [("file_id", .text fileID)]
      match r.detail fileID with
      | .error e =>
        let s := { s with summary := { s.summary with appLayerCompromised := true } }
        .ok (s.send .attackApp "verify_gone" .ok
          "Konfirmasi: berkas tidak dapat diakses via API aplikasi"
          ("Permintaan detail berkas kini ditolak — lapisan aplikasi benar-benar " ++
            "kehilangan berkas.") [("file_id", .text fileID), ("lookup_error", .text e)])
      | .ok () =>
        .ok (s.send .attackApp "verify_gone" .breach
          "Berkas masih dapat diakses setelah penghapusan permanen"
          "Tidak terduga: metadata seharusnya sudah terhapus." [("file_id", .text fileID)])

/-- The iteration of phase 2 over the chunks; `i` of them came before. It counts in
`chunksVerified`. -/
def verifyChunks : (i chunksVerified : Nat) → List String → SecurityLabRun → Nat × SecurityLabRun
  | _, chunksVerified, [], s => (chunksVerified, s)
  | i, chunksVerified, chunkHash :: chunkHashes, s =>
    match r.getChunkStatus i chunkHash with
    | .error e =>
      verifyChunks (i + 1) chunksVerified chunkHashes (s.send .proof "verify_chunk" .breach
        ("Gagal memverifikasi chunk #" ++ toString (i + 1)) e [("chunk_hash", .text chunkHash)])
    | .ok status =>
      if status.«exists» then
        verifyChunks (i + 1) (chunksVerified + 1) chunkHashes (s.send .proof "verify_chunk" .ok
          ("Chunk fisik #" ++ toString (i + 1) ++ " ada di disk")
          "Chunk konten masih tersimpan di Vault Core."
          [("chunk_hash", .text chunkHash), ("size_bytes", .int status.sizeBytes)])
      else
        verifyChunks (i + 1) chunksVerified chunkHashes (s.send .proof "verify_chunk" .breach
          ("Chunk fisik #" ++ toString (i + 1) ++ " hilang") "Chunk seharusnya masih ada."
          [("chunk_hash", .text chunkHash)])

/-- Phase 2: the Vault still has the manifest and its chunks. -/
def phaseProof (manifestID : String) (s : SecurityLabRun) : LabResult SecurityLabRun :=
  let s := s.send .proof "intro" .info "Memeriksa Vault Core setelah serangan lapisan aplikasi"
    "Apakah konten fisik immutable ikut hilang? Kita query langsung ke Vault Core via UDS." []
  match r.getManifest 1 manifestID with
  | .error e =>
    .error (s.send .proof "read_manifest" .breach "Manifest hilang dari Vault Core" e
      [("manifest_id", .text manifestID)], "security lab: read manifest proof: " ++ e)
  | .ok m =>
    let s := { s with summary := { s.summary with vaultManifestIntact := true } }
    let s := s.send .proof "read_manifest" .ok "Manifest masih utuh di Vault Core"
      "Meski metadata aplikasi terhapus, manifest immutable tetap ada."
      [("manifest_id", .text m.manifestID), ("file_hash", .text m.fileHash),
        ("chunk_count", .int m.chunkCount), ("immutable", .bool m.immutable)]
    let (chunksVerified, s) := r.verifyChunks 0 0 m.chunkHashes s
    .ok { s with summary := { s.summary with chunksVerified } }

structure Attack where
  method : String
  label : String
  body : ByteArray

def attacks : List Attack :=
  [⟨"DELETE", "Hapus manifest", .empty⟩,
    ⟨"PUT", "Timpa manifest (enkripsi)", "\x7b\"corrupted\":true\x7d".toUTF8⟩,
    ⟨"PATCH", "Modifikasi sebagian manifest", "\x7b\"immutable\":false\x7d".toUTF8⟩]

/-- One attack of phase 3. -/
def attack (manifestID : String) (s : SecurityLabRun) (atk : Attack) : SecurityLabRun :=
  let s := { s with summary := { s.summary with
    udsAttacksAttempted := s.summary.udsAttacksAttempted + 1 } }
  match r.attemptManifestMutation atk.method manifestID atk.body with
  | .error e =>
    s.send .attackUDS ("attack_" ++ atk.method) .breach (atk.label ++ ": kesalahan transport") e
      [("method", .text atk.method)]
  | .ok attempt =>
    if attempt.blocked then
      let s := { s with summary := { s.summary with
        udsAttacksBlocked := s.summary.udsAttacksBlocked + 1 } }
      s.send .attackUDS ("attack_" ++ atk.method) .blocked (atk.label ++ " — DITOLAK VAULT CORE")
        ("Vault Core menolak operasi destruktif di tingkat protokol " ++
          "(HTTP 403 operation_forbidden).")
        [("method", .text atk.method), ("status_code", .int attempt.statusCode),
          ("error_code", .text attempt.errorCode), ("raw_response", .text attempt.rawBody)]
    else
      s.send .attackUDS ("attack_" ++ atk.method) .breach (atk.label ++ " — TIDAK ditolak!")
        "Operasi destruktif tidak ditolak sebagaimana mestinya."
        [("method", .text atk.method), ("status_code", .int attempt.statusCode),
          ("raw_response", .text attempt.rawBody)]

/-- Phase 3: the manifest is attacked in the Vault. -/
def phaseAttackUDS (manifestID : String) (s : SecurityLabRun) : SecurityLabRun :=
  attacks.foldl (r.attack manifestID) (s.send .attackUDS "intro" .info
    "Skenario: penyerang menyerang Vault Core langsung via UDS"
    ("Penyerang mencoba menghapus/menimpa manifest immutable melalui protokol penyimpanan " ++
      "(gaya enkripsi ransomware).") [])

/-- Phase 4 once the object is read: it is compared with what was uploaded. -/
def compare (reconstructed : ByteArray) (s : SecurityLabRun) : SecurityLabRun :=
  let s := { s with summary := { s.summary with
    contentHashAfter := r.sha256Hex reconstructed
    reconstructionIdentical := decide (reconstructed = r.demoContent) } }
  let hashes := [("content_sha256_before", LabValue.text s.summary.contentHashBefore),
    ("content_sha256_after", .text s.summary.contentHashAfter)]
  if s.summary.reconstructionIdentical then
    s.send .after "compare" .ok "Konten IDENTIK dengan berkas asli"
      "Rekonstruksi byte-to-byte cocok: data tidak berubah sedikit pun meski diserang." hashes
  else
    s.send .after "compare" .breach "Konten BERBEDA dari berkas asli"
      "Rekonstruksi tidak cocok: integritas data gagal." hashes

/-- Phase 4 once the final manifest is read: the verdict. -/
def conclude (m : Vaultclient.ManifestRecord) (s : SecurityLabRun) : SecurityLabRun :=
  let summary := { s.summary with
    fileHashAfter := m.fileHash
    chunkCountAfter := m.chunkCount
    immutableAfter := m.immutable }
  let summary := { summary with passed := summary.verdict }
  let (finalStatus, finalTitle) :=
    if summary.passed then
      (SecurityStatus.ok, "Demo selesai — semua invariant keamanan terjaga")
    else (.breach, "Demo selesai — ada invariant yang gagal")
  { s with summary }.send .after "summary" finalStatus finalTitle
    ("Pemisahan otoritas terbukti: penguasaan lapisan aplikasi tidak memberi akses ke " ++
      "penyimpanan immutable Vault Core.") summary.data

/-- Phase 4: the object is read back and compared, and the verdict is given. -/
def phaseAfter (manifestID : String) (s : SecurityLabRun) : LabResult SecurityLabRun :=
  let s := s.send .after "intro" .info "Rekonstruksi & verifikasi akhir"
    ("Mengambil objek langsung dari Vault Core, lalu membandingkan dengan berkas asli " ++
      "byte-to-byte.") []
  match r.downloadObject manifestID with
  | .error e =>
    .error (s.send .after "reconstruct" .breach "Gagal merekonstruksi objek dari Vault Core" e
      [("manifest_id", .text manifestID)], "security lab: reconstruct object: " ++ e)
  | .ok (.error e) =>
    .error (s.send .after "reconstruct" .breach "Gagal membaca objek hasil rekonstruksi" e [],
      "security lab: read reconstructed object: " ++ e)
  | .ok (.ok reconstructed) =>
    let s := r.compare reconstructed s
    match r.getManifest 2 manifestID with
    | .error e =>
      .error (s.send .after "final_manifest" .breach "Gagal membaca manifest akhir" e [],
        "security lab: read manifest after: " ++ e)
    | .ok m => .ok (conclude m s)

def run : LabResult SecurityLabRun := do
  let runID ← r.newSecurityRunID.mapError fun e => (⟨[], {}⟩, e)
  let (outcome, s) ← r.phaseBefore ⟨[], { runID }⟩
  let s ← r.phaseAttackApp outcome.fileID s
  let s ← r.phaseProof outcome.manifestID s
  r.phaseAfter outcome.manifestID (r.phaseAttackUDS outcome.manifestID s)

end SecurityLabReplies

end HashBox.Api
