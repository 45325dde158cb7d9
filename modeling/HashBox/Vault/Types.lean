import HashBox.Lib.Dict
import HashBox.Vault.FastCdc

/-!
# The Vault's data model (`internal/cas/types.go`)

A `Hash` is a BLAKE3-256 digest; the 64 lower-case hexadecimal digits that `normalizeHash` accepts
are its only text form, so the keys and ids of the database are digests here. A `Time` counts
nanoseconds from Go's zero time, so `IsZero` is `= 0`.

`Disk` is what every `Store` value of the process shares: the three key ranges of the Badger
database (`manifest:`, `chunk:`, `upload:`) and the chunk files
`<chunkRoot>/xy/zw/<hash>.bin`, which carry the hash of their name.
-/

namespace HashBox.Vault

export HashBox.FastCdc (Bytes)

/-- A BLAKE3-256 digest. -/
abbrev Hash := BitVec 256

/-- A point in time; `0` is Go's zero time. -/
abbrev Time := Nat

/-- An upload session id: 16 random bytes. -/
abbrev SessionID := BitVec 128

/-- `unicode.IsSpace`. -/
def isSpace (c : Char) : Bool :=
  let n := c.toNat
  (9 ≤ n && n ≤ 13) || n == 0x20 || n == 0x85 || n == 0xA0 || n == 0x1680 ||
    (0x2000 ≤ n && n ≤ 0x200A) || n == 0x2028 || n == 0x2029 || n == 0x202F || n == 0x205F ||
    n == 0x3000

/-- `strings.TrimSpace`. -/
def trimSpace (s : String) : String :=
  String.ofList ((s.toList.dropWhile isSpace).reverse.dropWhile isSpace).reverse

structure ManifestRecord where
  manifestID : Hash
  fileHash : Hash
  chunkHashes : List Hash
  totalSizeBytes : Int
  chunkCount : Int
  createdAt : Time
  immutable : Bool
  retired : Bool
  retiredAt : Option Time
deriving DecidableEq, Repr

structure ChunkRecord where
  chunkHash : Hash
  sizeBytes : Int
  manifestRefCount : Int
  retained : Bool
  createdAt : Time
deriving DecidableEq, Repr

/-- The `State` of an upload session. -/
inductive SessionState
  | inProgress
  | committed
  | failed
deriving DecidableEq, Repr

structure UploadSessionRecord where
  sessionID : SessionID
  fileName : String
  receivedChunks : List Hash
  startedAt : Time
  expiresAt : Time
  state : SessionState
deriving DecidableEq, Repr

structure UploadCommitResult where
  manifestID : Hash
  fileHash : Hash
  totalSizeBytes : Int
  chunkCount : Int
  dedupRatio : Rat
  immutable : Bool
  newChunkCount : Nat
  reuseChunkCount : Nat
deriving DecidableEq, Repr

/-- A chunk file: its bytes and its modification time. -/
structure ChunkFile where
  content : Bytes
  modTime : Time
deriving DecidableEq, Repr

/-- The Badger database and the chunk directory. -/
structure Disk where
  manifests : Dict Hash ManifestRecord
  chunks : Dict Hash ChunkRecord
  uploads : Dict SessionID UploadSessionRecord
  files : Dict Hash ChunkFile

/-- An empty database and an empty chunk directory. -/
def Disk.empty : Disk := ⟨∅, ∅, ∅, ∅⟩

/-- The errors of the package. A text with a `%s` stands for the text with the hash put there. -/
inductive Error
  | notFound
  | invalidHash
  | invalidUpload
  | other (message : String)
  | chunk (message : String) (chunkHash : Hash)
  /-- `fmt.Errorf("<context>: %w", err)`. -/
  | wrap (context : String) (err : Error)
  | wrapChunk (context : String) (chunkHash : Hash) (err : Error)
  /-- `fmt.Errorf("%w: <text>", err)`. -/
  | detail (err : Error) (text : String)
  /-- `fmt.Errorf("%w; <context>: %v", err, second)`. -/
  | also (err : Error) (context : String) (second : Error)
deriving DecidableEq, Repr

/-! ## What a manifest needs -/

/-- The chunk has its metadata record. -/
def Disk.hasRecord (d : Disk) (h : Hash) : Prop := (d.chunks.lookup h).isSome

/-- The chunk has its file. -/
def Disk.hasFile (d : Disk) (h : Hash) : Prop := (d.files.lookup h).isSome

/-- The chunk has its metadata record and its file. -/
def Disk.present (d : Disk) (h : Hash) : Prop := d.hasRecord h ∧ d.hasFile h

/-- Every chunk the manifest lists is present. -/
def Disk.backed (d : Disk) (m : ManifestRecord) : Prop := ∀ h ∈ m.chunkHashes, d.present h

/-- Some non-retired manifest lists the chunk. -/
def Disk.referenced (d : Disk) (h : Hash) : Prop :=
  ∃ id m, d.manifests.lookup id = some m ∧ m.retired = false ∧ h ∈ m.chunkHashes

/-- The manifest is stored and not retired. -/
def Disk.active (d : Disk) (manifestID : Hash) : Prop :=
  ∃ m, d.manifests.lookup manifestID = some m ∧ m.retired = false

/-- Every active manifest is backed. -/
def Disk.intact (d : Disk) : Prop :=
  ∀ id m, d.manifests.lookup id = some m → m.retired = false → d.backed m

instance (d : Disk) (h : Hash) : Decidable (d.hasRecord h) :=
  inferInstanceAs (Decidable (_ = true))

instance (d : Disk) (h : Hash) : Decidable (d.hasFile h) :=
  inferInstanceAs (Decidable (_ = true))

instance (d : Disk) (h : Hash) : Decidable (d.present h) :=
  inferInstanceAs (Decidable (_ ∧ _))

instance (d : Disk) (m : ManifestRecord) : Decidable (d.backed m) :=
  inferInstanceAs (Decidable (∀ h ∈ m.chunkHashes, d.present h))

end HashBox.Vault
