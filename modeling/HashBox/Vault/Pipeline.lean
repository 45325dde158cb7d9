import HashBox.Lib.Channels
import HashBox.Vault.Calls
import HashBox.Vault.Chunker

/-!
# ProcessUpload and its goroutine (`internal/cas/store.go`)

From the moment its session is stored a `ProcessUpload` is two threads: a goroutine runs `Split` on
the reader and sends the chunks to `chunkCh`, the caller receives them and stores one after the
other. They share the two channels, the memory that the chunks point into, and a context derived
from the request's, which the caller cancels when it returns. One step is one step of `Split`, a
send of its result, the close of the channel, or one operation of the caller; a thread that waits
for a channel has no step.

`Calls.lean` has the same call with the chunks as a list that is there from the start.
-/

namespace HashBox.Vault

open FastCdc Channels

/-- Where the goroutine stands. -/
inductive SplitPc
  /-- in `Split`, or about to send what it returned -/
  | running
  /-- before the deferred `close(chunkCh)` -/
  | closing
  | ended
deriving DecidableEq, Repr

/-- Where the caller stands. -/
inductive LoopPc
  /-- at the `range` over `chunkCh` -/
  | next
  | chunk (c : Chunker.Chunk)
  /-- at `<-splitErrCh` -/
  | splitErr
  | commit
  /-- in the deferred handler of an error -/
  | failed (err : Error) (session : UploadSessionRecord)
  | returned (result : Except Error UploadCommitResult)

structure Pipeline where
  disk : Disk
  /-- The context of the request, and the one derived from it. -/
  ctx : Chunker.Signal
  pipelineCtx : Chunker.Signal
  chunkCh : Channel Chunker.Chunk
  splitErrCh : Channel (Option String)
  split : Chunker.State
  goroutine : SplitPc
  session : UploadSessionRecord
  loop : UploadLoop
  pc : LoopPc
  /-- A panic of either thread ends the process. -/
  panic : Option Panic

/-- The call when its goroutine starts, `createUploadSession` having stored the record. -/
def Pipeline.start (cfg : Config) (env : UploadEnv) (fileName : String)
    (reader : List Chunker.Read) (d : Disk) : Pipeline :=
  let session := newUploadSession env.sessionID fileName (env.clock .createSession)
  { disk := putUploadSession d session, ctx := .live, pipelineCtx := .live
    chunkCh := .make 16, splitErrCh := .make 1
    split := Chunker.start cfg reader, goroutine := .running
    session, loop := .init, pc := .next, panic := none }

/-- A context that is done stays done for its first reason. -/
def cancelWith (signal : Chunker.Signal) (err : String) : Chunker.Signal :=
  match signal with
  | .live => .done err
  | .done err => .done err

/-- `cancel()`: the text is that of `context.Canceled`. -/
def Pipeline.cancel (y : Pipeline) : Pipeline :=
  { y with pipelineCtx := cancelWith y.pipelineCtx "context canceled" }

/-- A send that does not wait: the thread has no step while the buffer is full. -/
def Pipeline.send {α : Type} (y : Pipeline) (c : Channel α) (x : α)
    (sent : Channel α → Pipeline) : Option Pipeline :=
  match c.trySend x with
  | .ok (true, c) => some (sent c)
  | .ok (false, _) => none
  | .error p => some { y with panic := some p }

/-- What a `select` may find: a context that is done only if it is, and no `default` then. -/
def Pipeline.finds (y : Pipeline) : Chunker.Signal → Bool
  | .done err => y.pipelineCtx = .done err
  | .live => y.split.pc ≠ .poll || y.pipelineCtx = .live

/-- One step of the goroutine; `signal` is what a `select` of `Split` chooses. -/
def Pipeline.splitStep (cfg : Config) (y : Pipeline) (signal : Chunker.Signal) : Option Pipeline :=
  match y.goroutine with
  | .running =>
    match y.split.pc with
    | .returned err =>
      y.send y.splitErrCh err fun splitErrCh => { y with splitErrCh, goroutine := .closing }
    | _ =>
      if y.finds signal then
        (Chunker.step cfg y.split signal).bind fun split =>
          -- what the `emit` of this step sends, if it has one
          match split.out.drop y.split.out.length with
          | [] => some { y with split }
          | c :: _ => y.send y.chunkCh c fun chunkCh => { y with split, chunkCh }
      else none
  | .closing =>
    match y.chunkCh.close with
    | .ok chunkCh => some { y with chunkCh, goroutine := .ended }
    | .error p => some { y with panic := some p }
  | .ended => none

/-- The error return: the derived context is cancelled, then the deferred handler runs. -/
def Pipeline.fail (y : Pipeline) (err : Error) (session : UploadSessionRecord) : Pipeline :=
  { y.cancel with pc := .failed err session }

section
variable (blake3 : Bytes → Hash) (env : UploadEnv)

/-- The body of the loop over `chunkCh`; the chunk's bytes are read from the memory as it is. -/
def Pipeline.takeChunk (y : Pipeline) (c : Chunker.Chunk) : Pipeline :=
  let bytes := Slices.read y.split.mem c.bytes
  match touchChunk blake3 env c.index y.disk bytes with
  | (.error e, disk) =>
    let index := c.index
    { y with disk }.fail (.wrap s!"process chunk {index}" e) y.session
  | (.ok created, disk) =>
    let u := y.loop
    let loop : UploadLoop :=
      { written := u.written ++ bytes
        chunkHashes := u.chunkHashes ++ [blake3 bytes]
        totalSize := u.totalSize + c.size
        newChunkCount := if created then u.newChunkCount + 1 else u.newChunkCount
        reuseChunkCount := if created then u.reuseChunkCount else u.reuseChunkCount + 1 }
    { y with disk, loop, pc := .next }

/-- One step of the caller. -/
def Pipeline.callStep (y : Pipeline) : Option Pipeline :=
  match y.pc with
  | .next =>
    match y.chunkCh.tryRecv with
    | (some c, chunkCh) => some { y with chunkCh, pc := .chunk c }
    | (none, _) => if y.chunkCh.closed then some { y with pc := .splitErr } else none
  | .chunk c => some (y.takeChunk blake3 env c)
  | .splitErr =>
    match y.splitErrCh.tryRecv with
    | (some none, splitErrCh) => some { y with splitErrCh, pc := .commit }
    | (some (some e), splitErrCh) =>
      some ({ y with splitErrCh }.fail (.wrap "split upload stream" (.other e)) y.session)
    | (none, _) => none
  | .commit =>
    match commitUpload blake3 env y.session y.loop y.disk with
    | (.ok r, _, disk) => some { y.cancel with disk, pc := .returned (.ok r) }
    | (.error e, session, disk) => some ({ y with disk }.fail e session)
  | .failed e session =>
    match env.fault .markFailed with
    | some e' =>
      some { y with pc := .returned (.error (.also e "update upload session failed" e')) }
    | none =>
      let disk := putUploadSession y.disk { session with state := .failed }
      some { y with disk, pc := .returned (.error e) }
  | .returned _ => none

end

/-- A thread takes a step, or the request's context ends. -/
inductive PipelineAction
  | split (signal : Chunker.Signal)
  | call
  | ctxDone (err : String)
deriving DecidableEq, Repr

def Pipeline.step (blake3 : Bytes → Hash) (env : UploadEnv) (cfg : Config) (y : Pipeline)
    (a : PipelineAction) : Option Pipeline :=
  if y.panic.isSome then none
  else
    match a with
    | .split signal => y.splitStep cfg signal
    | .call => y.callStep blake3 env
    | .ctxDone err =>
      match y.ctx with
      | .live => some { y with ctx := .done err, pipelineCtx := cancelWith y.pipelineCtx err }
      | .done _ => none

/-- Both threads have come to their end. -/
def Pipeline.over (y : Pipeline) : Prop := y.goroutine = .ended ∧ ∃ r, y.pc = .returned r

/-! ## The same call with the chunks as a list -/

/-- The environment of a call that gets as far as its goroutine and whose stream ends with an error
behind `k` chunks, or with none. -/
def UploadEnv.stopping (env : UploadEnv) (stop : Option (Nat × String)) : UploadEnv :=
  { env with fault := fun
    | .start => none
    | .createSession => none
    | .receive i => match stop with
      | some (k, text) => if i = k then some (.other text) else none
      | none => none
    | op => env.fault op }

end HashBox.Vault
