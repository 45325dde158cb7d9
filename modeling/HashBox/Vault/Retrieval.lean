import HashBox.Vault.Store

/-!
# The two retrieval loops (`openObjectStrict`, `openObjectStream`)

Each loop with the variables it has: the strict one copies into a temporary file and counts the
bytes, the streaming one writes to a pipe and announces the length the manifest records. `io.Copy`
gives a chunk's bytes to all its writers. The chunk files are a parameter: they may hold anything,
and do not change during the read.
-/

namespace HashBox.Vault.Retrieval

section
variable (blake3 : Bytes → Hash) (files : Dict Hash ChunkFile)

/-! ## The strict path -/

/-- The variables of `openObjectStrict`; `fileHasher` is what the hasher has been given. -/
structure StrictLoop where
  tmpFile : Bytes
  fileHasher : Bytes
  totalWritten : Int

def strictChunks : List Hash → StrictLoop → Except Error StrictLoop
  | [], s => .ok s
  | h :: hs, s =>
    match files.lookup h with
    | none => .error (.chunk "open chunk %s" h)
    | some chunkFile =>
      let written := chunkFile.content.length
      let chunkHasher := chunkFile.content
      let s := { s with
        tmpFile := s.tmpFile ++ chunkFile.content
        fileHasher := s.fileHasher ++ chunkFile.content }
      if blake3 chunkHasher ≠ h then .error (.chunk "chunk hash mismatch for %s" h)
      else strictChunks hs { s with totalWritten := s.totalWritten + written }

/-- `openObjectStrict`: the length it announces, and the body, read from the file's start. -/
def openObjectStrict (m : ManifestRecord) : Except Error ObjectBody :=
  match strictChunks blake3 files m.chunkHashes ⟨[], [], 0⟩ with
  | .error e => .error e
  | .ok s =>
    if blake3 s.fileHasher ≠ m.fileHash then .error (.other "object hash does not match manifest")
    else .ok ⟨s.totalWritten, s.tmpFile, none⟩

/-! ## The streaming path -/

/-- The pipe: what has been written to it, and the error it is closed with; none stands for
`Close`, which the reader sees as the end of the file. -/
structure Pipe where
  writes : List Bytes
  closedWith : Option Error

/-- The goroutine of `openObjectStream`, from its loop to the end. -/
def streamChunks (fileHash : Hash) : List Hash → Bytes → List Bytes → Pipe
  | [], fileHasher, pw =>
    if blake3 fileHasher ≠ fileHash then
      ⟨pw, some (.other "object hash does not match manifest")⟩
    else ⟨pw, none⟩
  | h :: hs, fileHasher, pw =>
    match files.lookup h with
    | none => ⟨pw, some (.chunk "open chunk %s" h)⟩
    | some chunkFile =>
      let pw := pw ++ [chunkFile.content]
      let fileHasher := fileHasher ++ chunkFile.content
      let chunkHasher := chunkFile.content
      if blake3 chunkHasher ≠ h then ⟨pw, some (.chunk "chunk hash mismatch for %s" h)⟩
      else streamChunks fileHash hs fileHasher pw

/-- `openObjectStream`, its reader read to the end. -/
def openObjectStream (m : ManifestRecord) : ObjectBody :=
  let pipe := streamChunks blake3 files m.fileHash m.chunkHashes [] []
  ⟨m.totalSizeBytes, pipe.writes.flatten, pipe.closedWith⟩

end

end HashBox.Vault.Retrieval
