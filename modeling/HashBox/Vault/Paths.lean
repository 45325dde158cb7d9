import HashBox.Lib.CaseRanges
import HashBox.Lib.FilePath
import HashBox.Lib.Runes
import HashBox.Vault.Names

/-!
# From any string to a chunk file (`internal/cas/store.go`, `internal/cas/garbage_collector.go`)

`normalizeHash`, `chunkPaths` and what the walk of the chunk root makes of a file name, on Go's
strings: any bytes, whether they are UTF-8 or not. Paths are the strings that go to the operating
system. `Names` has the same functions on texts, and paths as names below the chunk root.
-/

namespace HashBox.Vault.Paths

/-- The bytes of a text. -/
def bytes (text : String) : Bytes := Runes.encode text.toList

/-- `strings.TrimSpace`. -/
def trimSpace (s : Bytes) : Bytes := Runes.trimFunc isSpace s

/-- `strings.ToLower`. -/
def toLower (s : Bytes) : Bytes := Runes.mapRunes Unicode.toLower s

/-- `strings.TrimSuffix`. -/
def trimSuffix (s tail : Bytes) : Bytes :=
  if tail <:+ s then s.take (s.length - tail.length) else s

/-- The digit of `reverseHexTable`. -/
def hexValue (b : UInt8) : Option UInt8 :=
  if 48 ≤ b ∧ b ≤ 57 then some (b - 48)
  else if 97 ≤ b ∧ b ≤ 102 then some (b - 87)
  else if 65 ≤ b ∧ b ≤ 70 then some (b - 55)
  else none

/-- `hex.DecodeString`: none where it returns an error. -/
def decodeString : Bytes → Option Bytes
  | [] => some []
  | [_] => none
  | p :: q :: src =>
    match hexValue p, hexValue q, decodeString src with
    | some a, some b, some dst => some ((a <<< 4 ||| b) :: dst)
    | _, _, _ => none

def normalizeHash (value : Bytes) : Except Error Bytes :=
  let normalized := toLower (trimSpace value)
  if normalized.length ≠ 64 then .error .invalidHash
  else
    match decodeString normalized with
    | none => .error .invalidHash
    | some _ => .ok normalized

/-- The storage path and the absolute path; `filepath.ToSlash` changes nothing where the separator
is a slash. -/
def chunkPaths (chunkRoot chunkHash : Bytes) : Except Error (Bytes × Bytes) :=
  match normalizeHash chunkHash with
  | .error e => .error e
  | .ok chunkHash =>
    if chunkHash.length < 4 then .error .invalidHash
    else
      let relativePath := FilePath.join
        [chunkHash.take 2, (chunkHash.take 4).drop 2, chunkHash ++ bytes ".bin"]
      let absolutePath := FilePath.join [chunkRoot, relativePath]
      let storagePath := FilePath.join [bytes "chunks", relativePath]
      .ok (storagePath, absolutePath)

/-- The path that `filepath.WalkDir` comes to by the entries of these names. -/
def walkedPath (chunkRoot : Bytes) (names : List Bytes) : Bytes :=
  names.foldl (fun dir name => FilePath.join [dir, name]) chunkRoot

/-- The hash the walk reads from the name of a regular file: none if it skips the file. -/
def walkedHash (name : Bytes) : Option Bytes :=
  if FilePath.ext name ≠ bytes ".bin" then none
  else (normalizeHash (trimSuffix name (bytes ".bin"))).toOption

end HashBox.Vault.Paths
