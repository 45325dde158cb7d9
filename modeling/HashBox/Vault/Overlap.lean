import HashBox.Vault.System

/-!
# Where uploads and sweeps meet

What a thread's state says about a chunk: an upload that has not committed has *touched* it, a
sweep that has read the metadata has it *pending* for removal, the sweep's next step *removes* its
file or record. `Calm` says that a step keeps the two apart: no removal of a chunk an upload has
touched, no commit that makes a pending or lost chunk referenced. The lock and the registry of one
`Store` are there to make every step calm.
-/

namespace HashBox.Vault

section
variable (blake3 : Bytes → Hash)

/-- The chunks the upload relies on until it commits: those it has been through, and the one it
has found or written so far. -/
def Upload.touched (u : Upload) : List Hash :=
  match u.pc with
  | .register | .next | .touchLock _ | .getChunk _ | .persist _ false | .commitLock _ | .commit _ =>
    u.chunkHashes
  | .stat c | .persist c true | .putRecord c | .mark c _ => blake3 c :: u.chunkHashes
  | .finish _ | .failed _ | .unregisterLock _ | .unregister _ | .done _ => []

def Thread.touched : Thread → List Hash
  | .upload u => u.touched blake3
  | _ => []

end

/-- The scan lets the sweep remove the chunk: a record that is a candidate, or an orphan. -/
def selected (scan : GarbageCollectionScan) (activeChunks : List Hash) (olderThan : Time)
    (todo : List (Hash × ChunkRecord)) (h : Hash) : Prop :=
  (∃ r retired, (h, r) ∈ todo ∧
      sweepDecision scan activeChunks olderThan h r = .candidate retired) ∨
    h ∈ scan.physicalOrphans

/-- The chunks the sweep has yet to remove something of; while it walks the directory, any old
file that `orphanHash` allows may become one. -/
def Sweep.pending (d : Disk) (w : Sweep) (h : Hash) : Prop :=
  match w.pc with
  | .walk active scan _ =>
    selected scan active w.olderThan (Dict.toList scan.chunkRecords) h ∨
      orphanHash scan active w.olderThan h = true ∧
        ∃ f ∈ d.files.lookup h, f.modTime < w.olderThan
  | .records active scan todo => selected scan active w.olderThan todo h
  | .removeFile active scan todo h' _ | .deleteMetadata active scan todo h' _ =>
    h = h' ∨ selected scan active w.olderThan todo h
  | .orphans todo => h ∈ todo
  | .lock | .snapshot | .scan _ | .done => False

def Thread.pending (d : Disk) : Thread → Hash → Prop
  | .sweep w => w.pending d
  | _ => fun _ => False

/-- The chunk whose file or record the step removes. -/
def Sweep.removes (d : Disk) (w : Sweep) : Choice → Option Hash
  | .go _ =>
    match w.pc with
    | .removeFile _ _ _ h _ | .orphans (h :: _) => if d.hasFile h then some h else none
    | .deleteMetadata _ _ _ h retired => if d.drops h w.olderThan retired then some h else none
    | _ => none
  | _ => none

def Thread.removes (d : Disk) : Thread → Choice → Option Hash
  | .sweep w, k => w.removes d k
  | _, _ => none

/-- The manifest whose commit transaction the step runs. -/
def Thread.commits : Thread → Choice → Option ManifestRecord
  | .upload u, .go _ =>
    match u.pc with
    | .commit m => some m
    | _ => none
  | _, _ => none

/-- The chunks that the commit of `m` makes referenced: a retired manifest that is stored already
becomes active again with its own list. -/
def Disk.activates (d : Disk) (m : ManifestRecord) : List Hash :=
  match d.manifests.lookup m.manifestID with
  | some e => if e.retired then e.chunkHashes else []
  | none => m.chunkHashes

/-- **The step keeps uploads and sweeps apart**: it removes nothing of a chunk that an upload
before its commit has touched, and it makes no chunk referenced that a sweep has pending, nor one
that is not present where the upload has not been through it. -/
structure Calm {ι : Type} (blake3 : Bytes → Hash) (y : System ι) (t : SessionID) (k : Choice) :
    Prop where
  removal : ∀ store th h, y.threads t = some (store, th) → th.removes y.disk k = some h →
    ∀ u store' th', y.threads u = some (store', th') → h ∉ th'.touched blake3
  commit : ∀ store th m, y.threads t = some (store, th) → th.commits k = some m →
    ∀ h ∈ y.disk.activates m, (h ∈ m.chunkHashes ∨ y.disk.present h) ∧
      ∀ u store' th', y.threads u = some (store', th') → ¬ th'.pending y.disk h

end HashBox.Vault
