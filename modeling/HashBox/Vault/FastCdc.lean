import Mathlib.Data.Nat.Log

/-!
# Content-defined chunking (`internal/fastcdc/chunker.go`)

`chunks cfg bytes` is the list of chunks `Split` emits for the byte stream `bytes`: the loop over
the bytes (`splitLoop`) with its chunk buffer and rolling fingerprint, and the last `emit` after
end of file. How the reader cuts the stream into reads plays no part in it: the source's outer loop
runs this inner loop on each read in turn.

`chunks_flatten` and `chunks_ne_nil`: the chunks concatenate to the stream, none is empty.
-/

namespace HashBox.FastCdc

/-- A byte sequence (`[]byte`). -/
abbrev Bytes := List UInt8

/-- `fastcdc.Config`. -/
structure Config where
  minSize : Int
  avgSize : Int
  maxSize : Int
deriving DecidableEq, Repr

/-- `Config.Validate`; the error texts are the source's. -/
def Config.validate (c : Config) : Except String Unit :=
  if c.minSize ≤ 0 ∨ c.avgSize ≤ 0 ∨ c.maxSize ≤ 0 then
    .error "chunk sizes must be positive"
  else if c.minSize > c.avgSize ∨ c.avgSize > c.maxSize then
    .error "chunk sizes must satisfy min <= avg <= max"
  else .ok ()

/-- One round of the xorshift generator that fills the gear table. -/
def xorshift (seed : UInt64) : UInt64 :=
  let seed := seed ^^^ (seed >>> 12)
  let seed := seed ^^^ (seed <<< 25)
  seed ^^^ (seed >>> 27)

/-- `n` further entries of the gear table from the generator's state. -/
def gearEntries : Nat → UInt64 → List UInt64
  | 0, _ => []
  | n + 1, seed =>
    let seed := xorshift seed
    (seed * 0x2545F4914F6CDD1D) :: gearEntries n seed

def gearTable : List UInt64 := gearEntries 256 0x9e3779b97f4a7c15

/-- `gearTable[b]`. -/
def gear (b : UInt8) : UInt64 := gearTable.getD b.toNat 0

/-- `uint64(1) << bits`: zero from 64 bits on. -/
def shiftOne (bits : Nat) : UInt64 := UInt64.ofBitVec (1#64 <<< bits)

/-- `cutMasks`: the small and the large mask for an average size. -/
def cutMasks (avgSize : Int) : UInt64 × UInt64 :=
  -- `bits.Len(uint(avgSize)) - 1` is the integer logarithm of a positive size
  let bitsAvg := max 4 (Nat.log2 avgSize.toNat)
  let largeBits := bitsAvg + 1
  (shiftOne bitsAvg - 1, shiftOne largeBits - 1)

def shouldCut (size : Int) (fingerprint : UInt64) (cfg : Config) (smallMask largeMask : UInt64) :
    Bool :=
  if size < cfg.minSize then false
  else if size ≥ cfg.maxSize then true
  else if size < cfg.avgSize then fingerprint &&& largeMask == 0
  else fingerprint &&& smallMask == 0

/-- The byte loop of `Split` with its `chunkBuf` and `fingerprint`, and the `emit` after end of
file. -/
def splitLoop (cfg : Config) (masks : UInt64 × UInt64) : Bytes → UInt64 → Bytes → List Bytes
  | chunkBuf, _, [] => if chunkBuf.isEmpty then [] else [chunkBuf]
  | chunkBuf, fingerprint, b :: rest =>
    let chunkBuf := chunkBuf ++ [b]
    let fingerprint := (fingerprint <<< 1) + gear b
    if shouldCut chunkBuf.length fingerprint cfg masks.1 masks.2 then
      chunkBuf :: splitLoop cfg masks [] 0 rest
    else splitLoop cfg masks chunkBuf fingerprint rest

/-- The chunks `Split` emits for a stream under an accepted configuration. -/
def chunks (cfg : Config) (bytes : Bytes) : List Bytes :=
  splitLoop cfg (cutMasks cfg.avgSize) [] 0 bytes

/-- `Split` run to the end of the stream: the chunks emitted, or the configuration error. -/
def split (cfg : Config) (bytes : Bytes) : Except String (List Bytes) :=
  cfg.validate.map fun _ => chunks cfg bytes

theorem split_ok {cfg : Config} {bytes : Bytes} {cs : List Bytes}
    (h : split cfg bytes = .ok cs) : cs = chunks cfg bytes ∧ cfg.validate = .ok () := by
  unfold split at h
  cases hv : cfg.validate with
  | error e => rw [hv] at h; cases h
  | ok u => rw [hv] at h; cases h; exact ⟨rfl, rfl⟩

theorem splitLoop_flatten (cfg : Config) (masks : UInt64 × UInt64) (bytes : Bytes) :
    ∀ (chunkBuf : Bytes) (fp : UInt64),
      (splitLoop cfg masks chunkBuf fp bytes).flatten = chunkBuf ++ bytes := by
  induction bytes with
  | nil =>
    intro chunkBuf fp
    unfold splitLoop
    split
    · simp_all
    · simp
  | cons b rest ih =>
    intro chunkBuf fp
    unfold splitLoop
    dsimp only
    split
    · rw [List.flatten_cons, ih, List.nil_append, List.append_assoc, List.singleton_append]
    · rw [ih, List.append_assoc, List.singleton_append]

theorem splitLoop_ne_nil (cfg : Config) (masks : UInt64 × UInt64) (bytes : Bytes) :
    ∀ (chunkBuf : Bytes) (fp : UInt64), ∀ c ∈ splitLoop cfg masks chunkBuf fp bytes, c ≠ [] := by
  induction bytes with
  | nil =>
    intro chunkBuf fp c hc
    unfold splitLoop at hc
    split at hc
    · cases hc
    · rw [List.mem_singleton.1 hc]; simp_all
  | cons b rest ih =>
    intro chunkBuf fp c hc
    unfold splitLoop at hc
    dsimp only at hc
    split at hc
    · rcases List.mem_cons.1 hc with rfl | hc
      · simp
      · exact ih _ _ c hc
    · exact ih _ _ c hc

/-- **The chunks concatenate to the stream.** -/
theorem chunks_flatten (cfg : Config) (bytes : Bytes) : (chunks cfg bytes).flatten = bytes := by
  rw [chunks, splitLoop_flatten, List.nil_append]

theorem chunks_ne_nil {cfg : Config} {bytes c : Bytes} (h : c ∈ chunks cfg bytes) : c ≠ [] :=
  splitLoop_ne_nil cfg _ bytes [] 0 c h

end HashBox.FastCdc
