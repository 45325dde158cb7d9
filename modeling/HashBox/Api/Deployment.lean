import HashBox.Api.Download
import HashBox.Api.Outbox
import HashBox.Vault.Calls

/-!
# The whole stack

`Outbox` with a Vault that chunks and stores the streams of the uploads, sweeps its garbage, cleans
up its sessions and starts anew under other environments. What was sent for a file is kept in
`streams`, so that it can be told what a download of the file has to return. A call of the Vault is
made of the Store; by `VaultClient.client_transparent` the socket adds nothing to it but the
failures that an `Outcome` has.
-/

namespace HashBox.Api

open Vault (Bytes Disk UploadEnv SweepEnv)

structure Deployment extends Outbox where
  /-- The environment that the Vault's process was started in. -/
  vaultConfig : Vault.Uds.Config
  /-- The name and the content that are uploaded as a file. -/
  streams : Dict Uuid (String × Bytes)

namespace Deployment

inductive Action
  /-- A call of the API, a claim, or the next call of the worker or of an upload. -/
  | outbox (a : Api.Action)
  | startUpload (t : Nat) (userID : Uuid) (directoryID : Option Uuid) (fileName mimeType : String)
      (newID : Uuid) (content : Bytes)
  /-- An upload's stream goes to the Vault. -/
  | vaultUpload (t : Nat) (env : UploadEnv) (o : Outcome)
  | collectGarbage (env : SweepEnv) (grace : Time)
  | cleanupExpiredUploadSessions
  /-- The Vault's process starts anew. -/
  | restart (cfg : Vault.Uds.Config)

def empty (cfg : Vault.Uds.Config) : Deployment := ⟨.empty, cfg, ∅⟩

/-- What `Outbox` leaves open about streams and chunks comes as steps of its own. -/
def refines (s : Deployment) : Api.Action → Bool
  | .startUpload .. => true
  | .event (.call _ (.uploadStart ..)) => true
  | .upload t _ _ => (s.uploads.lookup t).any (·.point == .vaultUpload)
  | .vaultData _ => true
  | _ => false

section
variable (lower : String → String) (blake3 : Bytes → Hash)

/-- An upload's call of the Vault: what it leaves, and the result that the client gets. -/
def storeStream (cfg : FastCdc.Config) (env : UploadEnv) (fileName : String) (content : Bytes)
    (o : Outcome) (d : Disk) : Disk × Option UploadCommitResult :=
  match o with
  | .ok =>
    let (result, d) := Vault.processUpload blake3 env cfg fileName content d
    (d, result.toOption)
  | .failed carriedOut =>
    (if carriedOut then (Vault.processUpload blake3 env cfg fileName content d).2 else d, none)

def step (s : Deployment) : Action × Time → Option Deployment
  | (.outbox a, now) =>
    if s.refines a then none
    else (Outbox.step lower s.toOutbox (a, now)).map fun y => { s with toOutbox := y }
  | (.startUpload t userID directoryID fileName mimeType newID content, now) =>
    (Outbox.step lower s.toOutbox
      (.startUpload t userID directoryID fileName mimeType newID, now)).map fun y =>
        { s with
          toOutbox := y
          streams := s.streams.insert newID (uploadName fileName, content) }
  | (.vaultUpload t env o, _) =>
    match s.uploads.lookup t with
    | none => none
    | some u =>
      match s.streams.lookup u.fileID with
      | none => none
      | some (fileName, content) =>
        if u.point ≠ .vaultUpload then none
        else
          let (vault, result) :=
            storeStream blake3 s.vaultConfig.chunking env fileName content o s.vault
          let point :=
            match result with
            | some result => .markCommitted result
            | none => .markFailed
          some { s with vault, uploads := s.uploads.insert t { u with point } }
  | (.collectGarbage env grace, _) =>
    some { s with vault := (Vault.collectGarbage env grace ∅ s.vault).2.2 }
  | (.cleanupExpiredUploadSessions, now) =>
    some { s with vault := (Vault.cleanupExpiredUploadSessions s.vault now).2 }
  | (.restart cfg, _) => some { s with vaultConfig := cfg }

end

end Deployment

end HashBox.Api
