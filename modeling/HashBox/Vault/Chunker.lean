import HashBox.Lib.Runs
import HashBox.Lib.Slices
import HashBox.Vault.FastCdc

/-!
# The chunker at work (`internal/fastcdc/chunker.go`)

`Split` as it runs on a reader: the read buffer and the chunk buffer are slices of arrays that it
allocates once and writes over, `emit` copies the chunk buffer to a fresh array and sends it, and
the context may be found done wherever the source selects on it. One step is one call of `Read`, one
round of the byte loop, the last `emit` or the check of the context between two reads.

A reader is the list of what its calls of `Read` will return; behind the last one it is at end of
file. The memory is part of the state, so what an emitted slice shows can be asked at any moment.
-/

namespace HashBox.FastCdc.Chunker

open Slices

/-- `32*1024`, the length of the read buffer. -/
def readBufSize : Nat := 32 * 1024

/-- What `Read` returns as its error. -/
inductive ReadError
  /-- an error that is `io.EOF` -/
  | eof
  | other (text : String)
deriving DecidableEq, Repr

/-- One return of `Read`: the bytes it put into the buffer, and its error. -/
structure Read where
  data : Bytes
  err : Option ReadError
  fits : data.length ≤ readBufSize

/-- `fastcdc.Chunk`. -/
structure Chunk where
  index : Nat
  bytes : Slice
  size : Nat
deriving DecidableEq, Repr

/-- Where `Split` is. -/
inductive Pc
  | read
  /-- in the byte loop of a read of `n` bytes, before byte `i` -/
  | byte (i n : Nat) (err : Option ReadError)
  /-- between two reads -/
  | poll
  /-- before the last `emit` -/
  | flush
  | returned (err : Option String)
deriving DecidableEq, Repr

/-- The local variables of `Split`, the reader, and the chunks sent to `out`. -/
structure State where
  mem : Memory UInt8
  readBuf : Slice
  chunkBuf : Slice
  fingerprint : UInt64
  chunkIndex : Nat
  reader : List Read
  out : List Chunk
  pc : Pc

/-- What a `select` finds the context to be. -/
inductive Signal
  | live
  | done (err : String)
deriving DecidableEq, Repr

/-- `Split` up to its loop. -/
def start (cfg : Config) (reader : List Read) : State :=
  let (mem, readBuf) := make [] 0 readBufSize readBufSize
  let (mem, chunkBuf) := make mem 0 0 cfg.maxSize.toNat
  { mem, readBuf, chunkBuf, fingerprint := 0, chunkIndex := 0, reader, out := []
    pc := match cfg.validate with
      | .error e => .returned (some e)
      | .ok () => .read }

/-- `emit`: nothing for an empty buffer; else a copy is sent, unless the context is done. -/
def emit (s : State) (signal : Signal) : Except String State :=
  if s.chunkBuf.len = 0 then .ok s
  else
    let (mem, emitted) := make s.mem 0 s.chunkBuf.len s.chunkBuf.len
    let mem := copy mem emitted s.chunkBuf
    let chunk : Chunk := { index := s.chunkIndex, bytes := emitted, size := emitted.len }
    match signal with
    | .done err => .error err
    | .live => .ok { s with
        mem, out := s.out ++ [chunk], chunkIndex := s.chunkIndex + 1, fingerprint := 0
        chunkBuf := s.chunkBuf.upTo 0 }

/-- The state after a call that returns an error to `Split`, which returns it. -/
def orReturn (s : State) : Except String State → State
  | .ok s' => s'
  | .error err => { s with pc := .returned (some err) }

/-- One round of the byte loop. -/
def takeByte (cfg : Config) (s : State) (i n : Nat) (err : Option ReadError) (signal : Signal) :
    State :=
  let b := (arrayAt s.mem s.readBuf.array).getD i 0
  let (mem, chunkBuf) := append s.mem s.chunkBuf b
  let s := { s with
    mem, chunkBuf, fingerprint := (s.fingerprint <<< 1) + gear b, pc := .byte (i + 1) n err }
  let (smallMask, largeMask) := cutMasks cfg.avgSize
  if shouldCut s.chunkBuf.len s.fingerprint cfg smallMask largeMask then orReturn s (emit s signal)
  else s

/-- What follows the bytes of a read: its error is looked at only now. -/
def readEnd (s : State) : Option ReadError → State
  | none => { s with pc := .poll }
  | some .eof => { s with pc := .flush }
  | some (.other text) => { s with pc := .returned (some ("read upload stream: " ++ text)) }

/-- One step of `Split`. -/
def step (cfg : Config) (s : State) (signal : Signal) : Option State :=
  match s.pc with
  | .read => some <| match s.reader with
    | [] => { s with pc := .byte 0 0 (some .eof) }
    | r :: reader =>
      { s with mem := fill s.mem s.readBuf r.data, reader, pc := .byte 0 r.data.length r.err }
  | .byte i n err => some <|
    if i < n then takeByte cfg s i n err signal else readEnd s err
  | .poll => some <| match signal with
    | .done err => { s with pc := .returned (some err) }
    | .live => { s with pc := .read }
  | .flush => some (orReturn s ((emit s signal).map fun s => { s with pc := .returned none }))
  | .returned _ => none

/-- The states of `Split` on a reader, under a context that is never done. -/
abbrev Run (cfg : Config) (reader : List Read) : State → Prop :=
  Runs.Reach (step cfg) (fun _ signal => signal = .live) (· = start cfg reader)

/-- What the chunks sent so far show in the memory as it is now: index, size and bytes of each. -/
def State.sent (s : State) : List (Nat × Nat × Bytes) :=
  s.out.map fun c => (c.index, c.size, Slices.read s.mem c.bytes)

/-- The bytes that a reader delivers up to its first error. -/
def delivered : List Read → Bytes
  | [] => []
  | r :: reader => if r.err.isSome then r.data else r.data ++ delivered reader

/-- What `Split` returns for the error of a `Read`: an end of file ends it well. -/
def ReadError.outcome : ReadError → Option String
  | .eof => none
  | .other text => some ("read upload stream: " ++ text)

/-- What `Split` returns on a reader. -/
def outcome : List Read → Option String
  | [] => none
  | r :: reader => match r.err with
    | none => outcome reader
    | some err => err.outcome

/-- A list of chunks with the index and the size that each is sent with. -/
def numbered (cs : List Bytes) : List (Nat × Nat × Bytes) :=
  cs.mapIdx fun i c => (i, c.length, c)

end HashBox.FastCdc.Chunker
