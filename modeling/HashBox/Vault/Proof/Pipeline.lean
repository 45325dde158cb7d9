import HashBox.Vault.Pipeline
import HashBox.Vault.Proof.Chunker
import HashBox.Vault.System

/-!
# The upload pipeline computes the upload

`pipeline_refines`: however the goroutine and the caller take turns, an upload comes to its end with
the result and the disk of the sequential `processUpload` on the bytes that the reader delivers.
Nothing panics, neither thread waits for ever, and the goroutine outlives no call.

`SplitAt` says how far `Split` is, whatever its context did; `CallAt` how far the caller is, as the
sequential loop on a prefix of the chunks. What connects the two is the buffer of `chunkCh`: it
holds what `Split` has sent behind what the caller has received.
-/

namespace HashBox.FastCdc.Chunker

open Slices

variable {cfg : Config} {s s' : State} {emitted : List Bytes} {buf : Bytes} {reader : List Read}
  {signal : Signal}

/-! ## Steps of `Split` under any context -/

theorem emit_out (s' : State) (h : emit s signal = .ok s') :
    s'.out = s.out ∨ signal = .live ∧ ∃ c, s'.out = s.out ++ [c] := by
  unfold emit at h
  split at h
  · cases h; exact .inl rfl
  · cases signal with
    | done err => cases h
    | live => cases h; exact .inr ⟨rfl, _, rfl⟩

theorem step_out (hs : step cfg s signal = some s') :
    s'.out = s.out ∨ signal = .live ∧ ∃ c, s'.out = s.out ++ [c] := by
  unfold step at hs
  cases hpc : s.pc with
  | read =>
    rw [hpc] at hs
    cases hs
    split <;> exact .inl rfl
  | byte i n err =>
    rw [hpc] at hs
    cases hs
    split
    · unfold takeByte
      dsimp only
      split
      · generalize hs1 :
          ({ s with mem := _, chunkBuf := _, fingerprint := _, pc := _ } : State) = s1
        have hout : s1.out = s.out := by rw [← hs1]
        cases he : emit s1 signal with
        | error e => exact .inl hout
        | ok s2 =>
          rw [← hout]
          exact emit_out s2 he
      · exact .inl rfl
    · rcases err with _ | _ | text <;> exact .inl rfl
  | poll =>
    rw [hpc] at hs
    cases hs
    cases signal <;> exact .inl rfl
  | flush =>
    rw [hpc] at hs
    cases hs
    cases he : emit s signal with
    | error e => exact .inl rfl
    | ok s1 => exact emit_out s1 he
  | returned r => rw [hpc] at hs; cases hs

theorem step_isSome (cfg : Config) (hpc : ∀ r, s.pc ≠ .returned r) (signal : Signal) :
    (step cfg s signal).isSome := by
  unfold step
  split
  · rfl
  · rfl
  · rfl
  · rfl
  · next r hr => exact absurd hr (hpc r)

theorem emit_done (s : State) (err : String) :
    emit s (.done err) = emit s .live ∨ emit s (.done err) = .error err := by
  unfold emit
  split
  · exact .inl rfl
  · exact .inr rfl

/-- **What a step does that finds the context done**: what it does on a live one, or it ends `Split`
with the error of the context, and what was sent stays as it is. -/
theorem step_done {err : String} (hs : step cfg s (.done err) = some s') :
    step cfg s .live = some s' ∨
      (s'.pc = .returned (some err) ∧ ∀ emitted buf, Holds cfg s emitted buf →
        buf.length < cfg.maxSize.toNat → ∃ buf', Holds cfg s' emitted buf') := by
  unfold step at hs ⊢
  cases hpc : s.pc with
  | read => rw [hpc] at hs; exact .inl hs
  | byte i n err' =>
    rw [hpc] at hs
    cases hs
    dsimp only
    split
    · unfold takeByte
      dsimp only
      split
      · generalize hs1 :
          ({ s with mem := _, chunkBuf := _, fingerprint := _, pc := _ } : State) = s1
        rcases emit_done s1 err with he | he
        · exact .inl (by rw [he])
        · rw [he]
          refine .inr ⟨rfl, fun emitted buf h hroom =>
            ⟨buf ++ [(arrayAt s.mem s.readBuf.array).getD i 0], ?_⟩⟩
          subst hs1
          exact h.append hroom _ _ _
      · exact .inl rfl
    · exact .inl rfl
  | poll =>
    rw [hpc] at hs
    cases hs
    exact .inr ⟨rfl, fun emitted buf h _ => ⟨buf, { h with }⟩⟩
  | flush =>
    rw [hpc] at hs
    cases hs
    rcases emit_done s err with he | he
    · exact .inl (by rw [he])
    · rw [he]
      exact .inr ⟨rfl, fun emitted buf h _ => ⟨buf, { h with }⟩⟩
  | returned r => rw [hpc] at hs; cases hs

/-- Every step comes closer to the end, whatever the context is. -/
theorem step_rank_lt (hs : step cfg s signal = some s') : rank s' < rank s := by
  have hpc : ∀ r, s.pc ≠ .returned r := fun r hr => by simp [step, hr] at hs
  obtain ⟨s1, h1, hlt⟩ := step_rank cfg hpc
  have hlive : step cfg s .live = some s' → rank s' < rank s := fun h => by
    cases h1.symm.trans h
    exact hlt
  cases signal with
  | live => exact hlive hs
  | done err =>
    rcases step_done hs with h | ⟨hret, -⟩
    · exact hlive h
    · have hzero : rank s' = 0 := by simp only [rank, hret]
      omega

/-! ## How far `Split` is -/

/-- `Split` has sent `emitted`: it is at work, or has returned because its context is done, or has
refused the configuration. -/
inductive SplitAt (cfg : Config) (reader : List Read) (ctx : Signal) (s : State)
    (emitted : List Bytes) : Prop
  | working (buf : Bytes) : cfg.validate = .ok () → Inv cfg reader s emitted buf →
    SplitAt cfg reader ctx s emitted
  | stopped (buf : Bytes) (err : String) : cfg.validate = .ok () → Holds cfg s emitted buf →
    emitted <+: chunks cfg (delivered reader) → s.pc = .returned (some err) → ctx = .done err →
    SplitAt cfg reader ctx s emitted
  | refused (err : String) : cfg.validate = .error err → Holds cfg s [] [] → emitted = [] →
    s.pc = .returned (some err) → SplitAt cfg reader ctx s emitted

variable {ctx ctx' : Signal}

theorem SplitAt.start (cfg : Config) (reader : List Read) :
    SplitAt cfg reader ctx (start cfg reader) [] := by
  cases hv : cfg.validate with
  | ok u => exact .working [] hv (start_inv hv reader)
  | error err =>
    exact .refused err hv (start_holds cfg reader) rfl (by simp only [Chunker.start, hv])

theorem SplitAt.mono (h : SplitAt cfg reader ctx s emitted)
    (hctx : ∀ err, ctx = .done err → ctx' = .done err) : SplitAt cfg reader ctx' s emitted := by
  cases h with
  | working buf hv hi => exact .working buf hv hi
  | stopped buf err hv hh hp hpc hc => exact .stopped buf err hv hh hp hpc (hctx err hc)
  | refused err hv hh he hpc => exact .refused err hv hh he hpc

theorem SplitAt.holds (h : SplitAt cfg reader ctx s emitted) : ∃ buf, Holds cfg s emitted buf := by
  cases h with
  | working buf hv hi => exact ⟨buf, hi.toHolds⟩
  | stopped buf err hv hh hp hpc hc => exact ⟨buf, hh⟩
  | refused err hv hh he hpc => exact ⟨[], he ▸ hh⟩

/-- What has been sent is a beginning of the chunks of the stream. -/
theorem SplitAt.prefix (h : SplitAt cfg reader ctx s emitted) :
    emitted <+: chunks cfg (delivered reader) := by
  cases h with
  | working buf hv hi => rw [← hi.cuts]; exact List.prefix_append _ _
  | stopped buf err hv hh hp hpc hc => exact hp
  | refused err hv hh he hpc => rw [he]; exact List.nil_prefix

theorem SplitAt.out_length (h : SplitAt cfg reader ctx s emitted) :
    s.out.length = emitted.length := by
  obtain ⟨buf, hh⟩ := h.holds
  rw [hh.out, List.length_mapIdx]

/-- **What a sent chunk shows**: the chunk of the stream at its place, with its index and size,
whatever the buffers hold by now. -/
theorem SplitAt.out_getElem (h : SplitAt cfg reader ctx s emitted) {n : Nat} {c : Chunk}
    (hc : s.out[n]? = some c) :
    c.index = n ∧ ∃ b, (chunks cfg (delivered reader))[n]? = some b ∧ c.size = b.length ∧
      Slices.read s.mem c.bytes = b := by
  obtain ⟨buf, hh⟩ := h.holds
  have hsent := congrArg (·[n]?) hh.sent
  simp only [State.sent, numbered, List.getElem?_map, hc, Option.map_some, List.getElem?_mapIdx]
    at hsent
  cases hb : emitted[n]? with
  | none => rw [hb] at hsent; cases hsent
  | some b =>
    rw [hb] at hsent
    simp only [Option.map_some, Option.some.injEq, Prod.mk.injEq] at hsent
    refine ⟨hsent.1, b, ?_, hsent.2⟩
    obtain ⟨rest, hrest⟩ := h.prefix
    rw [← hrest, List.getElem?_append_left (List.getElem?_eq_some_iff.1 hb).1, hb]

/-- **Why `Split` has returned.** -/
theorem SplitAt.returned (h : SplitAt cfg reader ctx s emitted) {r : Option String}
    (hr : s.pc = .returned r) :
    (cfg.validate = .ok () ∧ r = none ∧ outcome reader = none ∧
        emitted = chunks cfg (delivered reader)) ∨
      (∃ err, r = some err ∧ cfg.validate = .ok () ∧
        (outcome reader = some err ∨ ctx = .done err)) ∨
      ∃ err, r = some err ∧ cfg.validate = .error err ∧ emitted = [] := by
  cases h with
  | working buf hv hi =>
    have hres := hi.result
    rw [hr] at hres
    cases r with
    | none =>
      have hb := hi.ended hr
      have hcuts := hi.cuts
      subst hb
      exact .inl ⟨hv, rfl, hres.symm, by simpa [ahead, hr, splitLoop] using hcuts⟩
    | some err => exact .inr (.inl ⟨err, rfl, hv, .inl hres.symm⟩)
  | stopped buf err hv hh hp hpc hc =>
    cases hpc.symm.trans hr
    exact .inr (.inl ⟨err, rfl, hv, .inr hc⟩)
  | refused err hv hh he hpc =>
    cases hpc.symm.trans hr
    exact .inr (.inr ⟨err, rfl, hv, he⟩)

/-- **One step of `Split`, under any context**, sends what it sends behind what it has sent. -/
theorem SplitAt.step (h : SplitAt cfg reader ctx s emitted)
    (hs : Chunker.step cfg s signal = some s')
    (hctx : ∀ err, signal = .done err → ctx = .done err) :
    ∃ emitted', SplitAt cfg reader ctx s' emitted' := by
  have hpc : ∀ r, s.pc ≠ .returned r := fun r hr => by simp [Chunker.step, hr] at hs
  cases h with
  | working buf hv hi =>
    have hlive : Chunker.step cfg s .live = some s' →
        ∃ emitted', SplitAt cfg reader ctx s' emitted' := fun h => by
      obtain ⟨emitted', buf', hi'⟩ := step_inv hv hi h
      exact ⟨emitted', .working buf' hv hi'⟩
    cases signal with
    | live => exact hlive hs
    | done err =>
      rcases step_done hs with h | ⟨hret, hholds⟩
      · exact hlive h
      · obtain ⟨buf', hh⟩ := hholds emitted buf hi.toHolds hi.room
        have hat : SplitAt cfg reader ctx s emitted := .working buf hv hi
        have hp := hat.prefix
        exact ⟨emitted, .stopped buf' err hv hh hp hret (hctx err rfl)⟩
  | stopped buf err hv hh hp hpc' hc => exact absurd hpc' (hpc _)
  | refused err hv hh he hpc' => exact absurd hpc' (hpc _)

end HashBox.FastCdc.Chunker

namespace HashBox.Vault

open FastCdc Channels

variable {blake3 : Bytes → Hash} {env : UploadEnv} {cfg : Config}

/-! ## The sequential call behind some of its chunks -/

theorem touchChunk_stopping (stop : Option (Nat × String)) (i : Nat) (d : Disk) (c : Bytes) :
    touchChunk blake3 (env.stopping stop) i d c = touchChunk blake3 env i d c := rfl

theorem stopping_receive_none (i : Nat) : (env.stopping none).fault (.receive i) = none := rfl

/-- The loop over the chunks `xs ++ ys` goes on behind `xs` where it got to with `xs` alone. -/
theorem uploadChunks_append (stop : Option (Nat × String)) {xs : List Bytes} (ys : List Bytes) :
    ∀ {u u' : UploadLoop} {d d' : Disk},
      uploadChunks blake3 (env.stopping none) xs u d = (.ok u', d') →
      (∀ k text, stop = some (k, text) → u.chunkHashes.length + xs.length ≤ k) →
      u'.chunkHashes.length = u.chunkHashes.length + xs.length ∧
        uploadChunks blake3 (env.stopping stop) (xs ++ ys) u d =
          uploadChunks blake3 (env.stopping stop) ys u' d' := by
  induction xs with
  | nil =>
    intro u u' d d' h _
    rw [uploadChunks, stopping_receive_none] at h
    cases h
    exact ⟨rfl, rfl⟩
  | cons x xs ih =>
    intro u u' d d' h hstop
    have hfault : (env.stopping stop).fault (.receive u.chunkHashes.length) = none := by
      cases stop with
      | none => rfl
      | some p =>
        have := hstop p.1 p.2 rfl
        rw [List.length_cons] at this
        exact if_neg (by omega)
    rw [uploadChunks, stopping_receive_none] at h
    rw [List.cons_append, uploadChunks, hfault]
    dsimp only at h ⊢
    rw [touchChunk_stopping] at h ⊢
    cases ht : touchChunk blake3 env u.chunkHashes.length d x with
    | mk res d1 =>
      rw [ht] at h
      cases res with
      | error e => cases h
      | ok created =>
        obtain ⟨hlen, heq⟩ := ih h fun k text hk => by
          have := hstop k text hk
          rw [List.length_cons] at this
          simp only [List.length_append, List.length_singleton]
          omega
        refine ⟨?_, heq⟩
        rw [hlen, List.length_cons]
        simp only [List.length_append, List.length_singleton]
        omega

/-- An error of the stream behind the chunks of the loop so far ends the loop with it. -/
theorem uploadChunks_stopped (ys : List Bytes) (u : UploadLoop) (d : Disk) (text : String) :
    uploadChunks blake3 (env.stopping (some (u.chunkHashes.length, text))) ys u d =
      (.error (.wrap "split upload stream" (.other text)), d) := by
  have hfault : (env.stopping (some (u.chunkHashes.length, text))).fault
      (.receive u.chunkHashes.length) = some (.other text) := if_pos rfl
  cases ys with
  | nil => rw [uploadChunks, hfault]
  | cons y ys => rw [uploadChunks, hfault]

/-! ## Where the caller is -/

section
variable (blake3 env cfg) (fileName : String) (reader : List Chunker.Read) (d : Disk)

/-- The session record, and the disk once it is stored. -/
abbrev newSession : UploadSessionRecord :=
  newUploadSession env.sessionID fileName (env.clock .createSession)

/-- The loop behind the first `n` chunks of the stream. -/
def LoopAt (n : Nat) (u : UploadLoop) (d' : Disk) : Prop :=
  uploadChunks blake3 (env.stopping none) ((chunks cfg (Chunker.delivered reader)).take n) .init
    (putUploadSession d (newSession env fileName)) = (.ok u, d')

/-- The stream ends where `stop` says for a reason. -/
def Stopped (ctx : Chunker.Signal) (stop : Option (Nat × String)) : Prop :=
  ∀ k text, stop = some (k, text) → Chunker.outcome reader = some text ∨ ctx = .done text

/-- What is behind the caller and what is ahead of it, by where it stands. -/
def CallAt (y : Pipeline) : LoopPc → Prop
  | .next => ∃ n ≤ y.split.out.length, y.chunkCh.buf = y.split.out.drop n ∧
      y.loop.chunkHashes.length = n ∧ LoopAt blake3 env cfg fileName reader d n y.loop y.disk
  | .chunk c => ∃ n, y.split.out[n]? = some c ∧ y.chunkCh.buf = y.split.out.drop (n + 1) ∧
      y.loop.chunkHashes.length = n ∧ LoopAt blake3 env cfg fileName reader d n y.loop y.disk
  | .splitErr => y.goroutine = .ended ∧ y.loop.chunkHashes.length = y.split.out.length ∧
      LoopAt blake3 env cfg fileName reader d y.split.out.length y.loop y.disk
  | .commit => y.goroutine = .ended ∧ cfg.validate = .ok () ∧ Chunker.outcome reader = none ∧
      uploadChunks blake3 (env.stopping none) (chunks cfg (Chunker.delivered reader)) .init
        (putUploadSession d (newSession env fileName)) = (.ok y.loop, y.disk)
  | .failed e session => ∃ stop, Stopped reader y.ctx stop ∧
      uploadBody blake3 (env.stopping stop) cfg (newSession env fileName)
        (Chunker.delivered reader) (putUploadSession d (newSession env fileName)) =
          (.error e, session, y.disk)
  | .returned r => ∃ stop, Stopped reader y.ctx stop ∧
      processUpload blake3 (env.stopping stop) cfg fileName (Chunker.delivered reader) d =
        (r, y.disk) ∧
      ∀ result, r = .ok result → stop = none ∧ Chunker.outcome reader = none

def LoopPc.early : LoopPc → Prop
  | .next | .chunk _ | .splitErr | .commit => True
  | .failed .. | .returned _ => False

def LoopPc.waiting : LoopPc → Prop
  | .next | .chunk _ | .splitErr => True
  | .commit | .failed .. | .returned _ => False

structure PipelineInv (y : Pipeline) : Prop where
  calm : y.panic = none
  split : ∃ emitted, Chunker.SplitAt cfg reader y.pipelineCtx y.split emitted
  cap : y.chunkCh.cap = 16
  closed : y.chunkCh.closed = true ↔ y.goroutine = .ended
  errCap : y.splitErrCh.cap = 1
  errOpen : y.splitErrCh.closed = false
  errEmpty : y.goroutine = .running → y.splitErrCh.buf = []
  errSent : y.goroutine ≠ .running → ∃ r, y.split.pc = .returned r ∧
    (y.pc.waiting → y.splitErrCh.buf = [r])
  derived : y.pc.early → y.pipelineCtx = y.ctx
  cancelled : ¬ y.pc.early → y.pipelineCtx ≠ .live
  session : y.session = newSession env fileName
  call : CallAt blake3 env cfg fileName reader d y y.pc

end

variable {fileName : String} {reader : List Chunker.Read} {d : Disk} {y y' : Pipeline}

theorem start_pipelineInv :
    PipelineInv blake3 env cfg fileName reader d (.start cfg env fileName reader d) where
  calm := rfl
  split := ⟨[], .start cfg reader⟩
  cap := rfl
  closed := ⟨fun h => (by cases h), fun h => (by cases h)⟩
  errCap := rfl
  errOpen := rfl
  errEmpty _ := rfl
  errSent h := absurd rfl h
  derived _ := rfl
  cancelled h := absurd trivial h
  session := rfl
  call := ⟨0, Nat.zero_le _, rfl, rfl, rfl⟩

/-! ## A step of the goroutine -/

theorem send_open {α : Type} {y y' : Pipeline} {c : Channel α} {x : α} {sent : Channel α → Pipeline}
    (hopen : c.closed = false) (h : y.send c x sent = some y') :
    ∃ c', y' = sent c' ∧ c'.buf = c.buf ++ [x] ∧ c'.cap = c.cap ∧ c'.closed = false := by
  unfold Pipeline.send at h
  rcases Channel.trySend_open hopen x with ⟨-, ht⟩ | ⟨-, c', ht, hc⟩
  · rw [ht] at h; cases h
  · rw [ht] at h; cases h; exact ⟨c', rfl, hc⟩

/-- Where the caller is does not change when `Split` sends, or goes on without sending. -/
theorem CallAt.split {pc : LoopPc} {split : Chunker.State} {chunkCh : Channel Chunker.Chunk}
    (cs : List Chunker.Chunk) (h : CallAt blake3 env cfg fileName reader d y pc)
    (hrun : y.goroutine = .running) (hout : split.out = y.split.out ++ cs)
    (hbuf : chunkCh.buf = y.chunkCh.buf ++ cs) :
    CallAt blake3 env cfg fileName reader d { y with split, chunkCh } pc := by
  cases pc with
  | next =>
    obtain ⟨n, hn, hb, hl, hloop⟩ := h
    refine ⟨n, ?_, ?_, hl, hloop⟩
    · rw [hout, List.length_append]; omega
    · rw [hbuf, hout, hb, List.drop_append_of_le_length hn]
  | chunk c =>
    obtain ⟨n, hc, hb, hl, hloop⟩ := h
    have hlt := (List.getElem?_eq_some_iff.1 hc).1
    refine ⟨n, ?_, ?_, hl, hloop⟩
    · rw [hout, List.getElem?_append_left hlt, hc]
    · rw [hbuf, hout, hb, List.drop_append_of_le_length hlt]
  | splitErr => rw [h.1] at hrun; cases hrun
  | commit => rw [h.1] at hrun; cases hrun
  | failed e session => exact h
  | returned r => exact h

/-- **What a step of the goroutine is.** -/
theorem splitStep_cases {signal : Chunker.Signal} (hs : y.splitStep cfg signal = some y') :
    (y.goroutine = .running ∧ ∃ err, y.split.pc = .returned err ∧
      (y.send y.splitErrCh err fun splitErrCh => { y with splitErrCh, goroutine := .closing }) =
        some y') ∨
    (y.goroutine = .running ∧ y.finds signal = true ∧
      ∃ split, Chunker.step cfg y.split signal = some split ∧
        ((split.out = y.split.out ∧ y' = { y with split }) ∨
          ∃ c, split.out = y.split.out ++ [c] ∧
            (y.send y.chunkCh c fun chunkCh => { y with split, chunkCh }) = some y')) ∨
    (y.goroutine = .closing ∧ ((∃ chunkCh, y.chunkCh.close = .ok chunkCh ∧
        y' = { y with chunkCh, goroutine := .ended }) ∨
      ∃ p, y.chunkCh.close = .error p ∧ y' = { y with panic := some p })) := by
  unfold Pipeline.splitStep at hs
  split at hs
  · next hg =>
    split at hs
    · next err hret => exact .inl ⟨hg, err, hret, hs⟩
    · split at hs
      · next hfinds =>
        refine .inr (.inl ⟨hg, hfinds, ?_⟩)
        obtain ⟨split, hstep, hs⟩ := Option.bind_eq_some_iff.1 hs
        refine ⟨split, hstep, ?_⟩
        rcases Chunker.step_out hstep with hout | ⟨-, c, hout⟩
        · rw [hout, List.drop_length] at hs
          exact .inl ⟨hout, (Option.some.inj hs).symm⟩
        · rw [hout, List.drop_left] at hs
          exact .inr ⟨c, hout, hs⟩
      · cases hs
  · next hg =>
    refine .inr (.inr ⟨hg, ?_⟩)
    split at hs
    · next chunkCh hc => exact .inl ⟨chunkCh, hc, (Option.some.inj hs).symm⟩
    · next p hc => exact .inr ⟨p, hc, (Option.some.inj hs).symm⟩
  · cases hs

theorem PipelineInv.open (h : PipelineInv blake3 env cfg fileName reader d y)
    (hg : y.goroutine ≠ .ended) : y.chunkCh.closed = false := by
  rw [← Bool.not_eq_true, h.closed]
  exact hg

theorem PipelineInv.splitStep (h : PipelineInv blake3 env cfg fileName reader d y)
    {signal : Chunker.Signal} (hs : y.splitStep cfg signal = some y') :
    PipelineInv blake3 env cfg fileName reader d y' := by
  rcases splitStep_cases hs with ⟨hg, err, hret, hsend⟩ | ⟨hg, hfinds, split, hstep, hsend⟩ |
    ⟨hg, hclose⟩
  · obtain ⟨c', rfl, hbuf, hcap, hclosed⟩ := send_open h.errOpen hsend
    refine { h with
      closed := ?_, errCap := hcap.trans h.errCap, errOpen := hclosed, errEmpty := ?_
      errSent := ?_, call := ?_ }
    · simp [h.open (by rw [hg]; decide)]
    · intro h'; cases h'
    · refine fun _ => ⟨err, hret, fun _ => ?_⟩
      rw [hbuf, h.errEmpty hg]
      rfl
    · have hcall := h.call
      dsimp only
      cases hpc : y.pc with
      | splitErr => rw [hpc] at hcall; rw [hcall.1] at hg; cases hg
      | commit => rw [hpc] at hcall; rw [hcall.1] at hg; cases hg
      | _ => rw [hpc] at hcall; exact hcall
  · obtain ⟨emitted, hsplit⟩ := h.split
    have hopen := h.open (by rw [hg]; decide)
    have hctx : ∀ err, signal = .done err → y.pipelineCtx = .done err := by
      rintro err rfl
      exact of_decide_eq_true hfinds
    have hsplit' := hsplit.step hstep hctx
    rcases hsend with ⟨hout, rfl⟩ | ⟨c, hout, hsend⟩
    · refine { h with split := hsplit', errSent := fun h' => absurd hg h', call := ?_ }
      exact h.call.split [] hg (hout.trans (List.append_nil _).symm)
        (List.append_nil _).symm
    · obtain ⟨c', rfl, hbuf, hcap, hclosed⟩ := send_open hopen hsend
      refine { h with
        split := hsplit', cap := hcap.trans h.cap, closed := ?_
        errSent := fun h' => absurd hg h', call := h.call.split _ hg hout hbuf }
      simp [hclosed, hg]
  · have hopen := h.open (by rw [hg]; decide)
    rw [Channel.close_open hopen] at hclose
    rcases hclose with ⟨chunkCh, hc, rfl⟩ | ⟨p, hc, -⟩
    · cases hc
      refine { h with
        closed := ⟨fun _ => rfl, fun _ => rfl⟩, errEmpty := ?_
        errSent := fun _ => h.errSent (by rw [hg]; decide), call := ?_ }
      · intro h'; cases h'
      · have hcall := h.call
        dsimp only
        cases hpc : y.pc with
        | splitErr => rw [hpc] at hcall; rw [hcall.1] at hg; cases hg
        | commit => rw [hpc] at hcall; rw [hcall.1] at hg; cases hg
        | _ => rw [hpc] at hcall; exact hcall
    · cases hc

/-! ## A step of the caller -/

theorem Stopped.none {ctx : Chunker.Signal} : Stopped reader ctx none := fun _ _ h => by cases h

theorem uploadBody_ok (blake3 : Bytes → Hash) (env : UploadEnv) (hv : cfg.validate = .ok ())
    (stop : Option (Nat × String)) (session : UploadSessionRecord) (bytes : Bytes) (d : Disk) :
    uploadBody blake3 (env.stopping stop) cfg session bytes d =
      match uploadChunks blake3 (env.stopping stop) (chunks cfg bytes) .init d with
      | (.error e, d) => (.error e, session, d)
      | (.ok u, d) => commitUpload blake3 env session u d := by
  have hsplit : FastCdc.split cfg bytes = .ok (chunks cfg bytes) := by rw [FastCdc.split, hv]; rfl
  rw [uploadBody, hsplit]
  rfl

theorem processUpload_stopping (stop : Option (Nat × String)) (bytes : Bytes) :
    processUpload blake3 (env.stopping stop) cfg fileName bytes d =
      match uploadBody blake3 (env.stopping stop) cfg (newSession env fileName) bytes
        (putUploadSession d (newSession env fileName)) with
      | (.ok r, _, d) => (.ok r, d)
      | (.error e, session, d) =>
        match env.fault .markFailed with
        | some e' => (.error (.also e "update upload session failed" e'), d)
        | none => (.error e, putUploadSession d { session with state := .failed }) := rfl

/-- Once the caller no longer waits for the result of `Split`, nothing is said of it, and the
context it derived may be cancelled. -/
theorem PipelineInv.past (h : PipelineInv blake3 env cfg fileName reader d y)
    {pipelineCtx : Chunker.Signal} {splitErrCh : Channel (Option String)} {disk : Disk}
    (pc : LoopPc) (hctx : ∀ err, y.pipelineCtx = .done err → pipelineCtx = .done err)
    (hdone : pipelineCtx ≠ .live)
    (hcap : splitErrCh.cap = 1) (hopen : splitErrCh.closed = false)
    (hempty : y.goroutine = .running → splitErrCh.buf = []) (hwait : ¬ pc.waiting)
    (hearly : ¬ pc.early)
    (hcall : CallAt blake3 env cfg fileName reader d { y with splitErrCh, disk } pc) :
    PipelineInv blake3 env cfg fileName reader d
      { y with pipelineCtx, splitErrCh, disk, pc } :=
  { h with
    split := let ⟨emitted, hs⟩ := h.split; ⟨emitted, hs.mono hctx⟩
    errCap := hcap
    errOpen := hopen
    errEmpty := hempty
    errSent := fun hg => let ⟨r, hr, _⟩ := h.errSent hg; ⟨r, hr, fun h' => absurd h' hwait⟩
    derived := fun h' => absurd h' hearly
    cancelled := fun _ => hdone
    call := by cases pc <;> exact hcall }

theorem cancelWith_ne_live (signal : Chunker.Signal) (text : String) :
    cancelWith signal text ≠ .live := by
  cases signal <;> exact fun h => by cases h

theorem cancelWith_done (signal : Chunker.Signal) (text : String) :
    ∀ err, signal = .done err → cancelWith signal text = .done err := fun _ h => by rw [h]; rfl

theorem PipelineInv.fail (h : PipelineInv blake3 env cfg fileName reader d y)
    {splitErrCh : Channel (Option String)} (disk : Disk) {e : Error} {session : UploadSessionRecord}
    (hcap : splitErrCh.cap = 1) (hopen : splitErrCh.closed = false)
    (hempty : y.goroutine = .running → splitErrCh.buf = [])
    (hcall : CallAt blake3 env cfg fileName reader d { y with splitErrCh, disk }
      (.failed e session)) :
    PipelineInv blake3 env cfg fileName reader d
      ({ y with splitErrCh, disk }.fail e session) :=
  h.past _ (cancelWith_done _ _) (cancelWith_ne_live _ _) hcap hopen hempty id id hcall

/-- The body of the loop is that of the sequential loop at the same chunk. -/
theorem PipelineInv.takeChunk (h : PipelineInv blake3 env cfg fileName reader d y)
    {c : Chunker.Chunk} (hpc : y.pc = .chunk c) :
    PipelineInv blake3 env cfg fileName reader d (y.takeChunk blake3 env c) := by
  obtain ⟨emitted, hsplit⟩ := h.split
  have hcall := h.call
  rw [hpc] at hcall
  obtain ⟨n, hc, hb, hl, hloop⟩ := hcall
  have hlt := (List.getElem?_eq_some_iff.1 hc).1
  obtain ⟨hindex, b, hall, hsize, hread⟩ := hsplit.out_getElem hc
  obtain ⟨hn, hbn⟩ := List.getElem?_eq_some_iff.1 hall
  have hv : cfg.validate = .ok () := by
    cases hsplit with
    | working buf hv hi => exact hv
    | stopped buf err hv => exact hv
    | refused err hv hh he hret =>
      subst he
      rw [hh.out] at hlt
      cases hlt
  have htake : (chunks cfg (Chunker.delivered reader)).take (n + 1) =
      (chunks cfg (Chunker.delivered reader)).take n ++ [b] := by
    rw [List.take_add_one, hall]; rfl
  unfold Pipeline.takeChunk
  dsimp only
  rw [hread, hindex]
  cases ht : touchChunk blake3 env n y.disk b with
  | mk res disk =>
    cases res with
    | ok created =>
      refine { h with
        errSent := ?_, derived := ?_, cancelled := fun h' => absurd trivial h', call := ?_ }
      · intro hg
        obtain ⟨r, hr, hbuf⟩ := h.errSent hg
        exact ⟨r, hr, fun _ => hbuf (by rw [hpc]; trivial)⟩
      · exact fun _ => h.derived (by rw [hpc]; trivial)
      · refine ⟨n + 1, hlt, hb, by simp [hl], ?_⟩
        unfold LoopAt
        rw [htake, (uploadChunks_append _ _ hloop fun _ _ h => by cases h).2]
        rw [uploadChunks, stopping_receive_none]
        dsimp only
        rw [touchChunk_stopping, hl, ht, hsize]
        rfl
    | error e =>
      refine h.fail _ h.errCap h.errOpen h.errEmpty ⟨none, .none, ?_⟩
      have hdrop : (chunks cfg (Chunker.delivered reader)).take n ++
          b :: (chunks cfg (Chunker.delivered reader)).drop (n + 1) =
            chunks cfg (Chunker.delivered reader) := by
        rw [← hbn, ← List.drop_eq_getElem_cons hn, List.take_append_drop]
      rw [uploadBody_ok blake3 env hv, ← hdrop,
        (uploadChunks_append _ _ hloop fun _ _ h => by cases h).2]
      rw [uploadChunks, stopping_receive_none]
      dsimp only
      rw [touchChunk_stopping, hl, ht, h.session]

theorem PipelineInv.splitFailed (h : PipelineInv blake3 env cfg fileName reader d y)
    (hpc : y.pc = .splitErr) {text : String} (hret : y.split.pc = .returned (some text))
    {splitErrCh : Channel (Option String)} (hcap : splitErrCh.cap = 1)
    (hopen : splitErrCh.closed = false) :
    PipelineInv blake3 env cfg fileName reader d
      ({ y with splitErrCh }.fail (.wrap "split upload stream" (.other text)) y.session) := by
  obtain ⟨emitted, hsplit⟩ := h.split
  have hcall := h.call
  rw [hpc] at hcall
  obtain ⟨hend, hl, hloop⟩ := hcall
  have hempty : y.goroutine = .running → splitErrCh.buf = [] := fun hg => by
    rw [hg] at hend; cases hend
  refine h.fail _ hcap hopen hempty ?_
  have hlen := hsplit.prefix.length_le
  rw [← hsplit.out_length] at hlen
  rw [h.session]
  rcases hsplit.returned hret with ⟨-, h', -⟩ | ⟨err, herr, hv, hwhy⟩ | ⟨err, herr, hv, hnil⟩
  · cases h'
  · cases herr
    refine ⟨some (y.loop.chunkHashes.length, text), ?_, ?_⟩
    · intro k t hk
      cases hk
      rw [h.derived (by rw [hpc]; trivial)] at hwhy
      exact hwhy
    · have hstep := (uploadChunks_append (some (y.loop.chunkHashes.length, text))
        ((chunks cfg (Chunker.delivered reader)).drop y.split.out.length) hloop
        fun k t hk => by
          cases hk
          rw [List.length_take_of_le hlen, hl]
          exact Nat.le_of_eq (Nat.zero_add _)).2
      rw [uploadBody_ok blake3 env hv, ← List.take_append_drop y.split.out.length
        (chunks cfg (Chunker.delivered reader)), hstep, uploadChunks_stopped]
  · cases herr
    refine ⟨none, .none, ?_⟩
    have hzero : y.split.out.length = 0 := by rw [hsplit.out_length, hnil]; rfl
    rw [hzero] at hloop
    have hdisk := (Prod.mk.inj (show (Except.ok UploadLoop.init, _) = _ from hloop)).2
    rw [uploadBody, FastCdc.split, hv, hdisk]
    rfl

theorem PipelineInv.callStep (h : PipelineInv blake3 env cfg fileName reader d y)
    (hs : y.callStep blake3 env = some y') : PipelineInv blake3 env cfg fileName reader d y' := by
  have hcall := h.call
  unfold Pipeline.callStep at hs
  cases hpc : y.pc with
  | next =>
    rw [hpc] at hs hcall
    obtain ⟨n, hn, hb, hl, hloop⟩ := hcall
    obtain ⟨hbuf, hcap, hclosed, hnone⟩ := y.chunkCh.tryRecv_spec
    have hwait : y.pc.waiting := by rw [hpc]; trivial
    have hearly : y.pc.early := by rw [hpc]; trivial
    cases hr : y.chunkCh.tryRecv with
    | mk c chunkCh =>
      rw [hr] at hs hbuf hcap hclosed hnone
      cases c with
      | some c =>
        cases hs
        have hdrop : c :: chunkCh.buf = y.split.out.drop n := hbuf.trans hb
        have hget : y.split.out[n]? = some c := by
          rw [← Nat.add_zero n, ← List.getElem?_drop, ← hdrop]; rfl
        refine { h with
          cap := hcap.trans h.cap, closed := by rw [hclosed]; exact h.closed
          errSent := ?_, derived := fun _ => h.derived hearly
          cancelled := fun h' => absurd trivial h'
          call := ⟨n, hget, ?_, hl, hloop⟩ }
        · intro hg
          obtain ⟨r, hr', hbuf'⟩ := h.errSent hg
          exact ⟨r, hr', fun _ => hbuf' hwait⟩
        · rw [← List.drop_drop, ← hdrop]; rfl
      | none =>
        dsimp only at hs
        split at hs
        · next hcl =>
          cases hs
          have hg := h.closed.1 hcl
          have hnil : y.split.out.drop n = [] := hb.symm.trans (hnone.1 rfl)
          have hout : y.split.out.length = n :=
            Nat.le_antisymm (List.drop_eq_nil_iff.1 hnil) hn
          refine { h with
            errSent := ?_, derived := fun _ => h.derived hearly
            cancelled := fun h' => absurd trivial h'
            call := ⟨hg, hl.trans hout.symm, hout ▸ hloop⟩ }
          intro hg
          obtain ⟨r, hr', hbuf'⟩ := h.errSent hg
          exact ⟨r, hr', fun _ => hbuf' hwait⟩
        · cases hs
  | chunk c =>
    rw [hpc] at hs
    cases hs
    exact h.takeChunk hpc
  | splitErr =>
    rw [hpc] at hs
    obtain ⟨hend, hl, hloop⟩ := (by rw [hpc] at hcall; exact hcall :
      CallAt blake3 env cfg fileName reader d y .splitErr)
    have hne : y.goroutine ≠ .running := by rw [hend]; decide
    obtain ⟨r, hret, hsent⟩ := h.errSent hne
    have hone := hsent (by rw [hpc]; trivial)
    obtain ⟨hbuf, hcap, hclosed, hnone⟩ := y.splitErrCh.tryRecv_spec
    cases hr : y.splitErrCh.tryRecv with
    | mk r' splitErrCh =>
      rw [hr] at hs hbuf hcap hclosed hnone
      cases r' with
      | none => cases hs
      | some r' =>
        obtain rfl : r' = r := (List.cons.inj (hbuf.trans hone)).1
        cases r' with
        | none =>
          cases hs
          obtain ⟨emitted, hsplit⟩ := h.split
          rcases hsplit.returned hret with ⟨hv, -, hout, rfl⟩ | ⟨_, h', _⟩ | ⟨_, h', _⟩
          · refine { h with
              errCap := hcap.trans h.errCap, errOpen := hclosed.trans h.errOpen
              errEmpty := fun hg => absurd hg hne
              errSent := fun _ => ⟨none, hret, fun h' => h'.elim⟩
              derived := fun _ => h.derived (by rw [hpc]; trivial)
              cancelled := fun h' => absurd trivial h'
              call := ⟨hend, hv, hout, ?_⟩ }
            rw [hsplit.out_length] at hloop
            unfold LoopAt at hloop
            rwa [List.take_length] at hloop
          · cases h'
          · cases h'
        | some text =>
          cases hs
          exact h.splitFailed hpc hret (hcap.trans h.errCap) (hclosed.trans h.errOpen)
  | commit =>
    rw [hpc] at hs hcall
    obtain ⟨hend, hv, hout, hloop⟩ := hcall
    have hbody := uploadBody_ok blake3 env hv none (newSession env fileName)
      (Chunker.delivered reader) (putUploadSession d (newSession env fileName))
    rw [hloop] at hbody
    rw [h.session] at hs
    dsimp only at hs hbody
    cases hc : commitUpload blake3 env (newSession env fileName) y.loop y.disk with
    | mk res x =>
      obtain ⟨session, disk⟩ := x
      rw [hc] at hs hbody
      cases res with
      | error e =>
        cases hs
        have h' := h.fail disk h.errCap h.errOpen h.errEmpty ⟨none, .none, hbody⟩
        rw [← h.session]
        exact h'
      | ok r =>
        cases hs
        refine h.past (.returned (.ok r)) (cancelWith_done _ _) (cancelWith_ne_live _ _)
          h.errCap h.errOpen h.errEmpty id id ⟨none, .none, ?_, fun _ _ => ⟨rfl, hout⟩⟩
        rw [processUpload_stopping, hbody]
  | failed e session =>
    rw [hpc] at hs hcall
    obtain ⟨stop, hstop, hbody⟩ := hcall
    have hdone := h.cancelled (by rw [hpc]; exact id)
    dsimp only at hs
    cases hmark : env.fault .markFailed with
    | some e' =>
      rw [hmark] at hs
      cases hs
      refine h.past (.returned _) (fun _ h => h) hdone h.errCap h.errOpen h.errEmpty id id
        ⟨stop, hstop, ?_, fun _ h => by cases h⟩
      rw [processUpload_stopping, hbody]
      dsimp only
      rw [hmark]
    | none =>
      rw [hmark] at hs
      cases hs
      refine h.past (.returned _) (fun _ h => h) hdone h.errCap h.errOpen h.errEmpty id id
        ⟨stop, hstop, ?_, fun _ h => by cases h⟩
      rw [processUpload_stopping, hbody]
      dsimp only
      rw [hmark]
  | returned r => rw [hpc] at hs; cases hs

/-! ## Whole runs -/

theorem PipelineInv.ctxDone (h : PipelineInv blake3 env cfg fileName reader d y) {err : String}
    (hctx : y.ctx = .live) :
    PipelineInv blake3 env cfg fileName reader d
      { y with ctx := .done err, pipelineCtx := cancelWith y.pipelineCtx err } := by
  have hstop : ∀ stop, Stopped reader y.ctx stop → Stopped reader (.done err) stop :=
    fun stop hs k text hk => (hs k text hk).imp_right fun h' => by rw [hctx] at h'; cases h'
  refine { h with
    split := ?_, derived := ?_, cancelled := fun _ => cancelWith_ne_live _ _, call := ?_ }
  · obtain ⟨emitted, hs⟩ := h.split
    exact ⟨emitted, hs.mono (cancelWith_done _ _)⟩
  · intro h'
    rw [h.derived h', hctx]
    rfl
  · have hcall := h.call
    dsimp only
    cases hpc : y.pc with
    | failed e session =>
      rw [hpc] at hcall
      obtain ⟨stop, hs, hbody⟩ := hcall
      exact ⟨stop, hstop stop hs, hbody⟩
    | returned r =>
      rw [hpc] at hcall
      obtain ⟨stop, hs, hbody⟩ := hcall
      exact ⟨stop, hstop stop hs, hbody⟩
    | _ => rw [hpc] at hcall; exact hcall

/-- **One step keeps the account**, whichever thread takes it. -/
theorem PipelineInv.step {a : PipelineAction} (h : PipelineInv blake3 env cfg fileName reader d y)
    (hs : y.step blake3 env cfg a = some y') : PipelineInv blake3 env cfg fileName reader d y' := by
  unfold Pipeline.step at hs
  rw [if_neg (by rw [h.calm]; decide)] at hs
  cases a with
  | split signal => exact h.splitStep hs
  | call => exact h.callStep hs
  | ctxDone err =>
    dsimp only at hs
    split at hs
    · next hctx => cases hs; exact h.ctxDone hctx
    · cases hs

/-- How many steps are still to come, at most. -/
def LoopPc.rank : LoopPc → Nat
  | .next => 4
  | .chunk _ => 5
  | .splitErr => 3
  | .commit => 2
  | .failed .. => 1
  | .returned _ => 0

def SplitPc.rank : SplitPc → Nat
  | .running => 2
  | .closing => 1
  | .ended => 0

def Pipeline.rank (y : Pipeline) : Nat :=
  3 * Chunker.rank y.split + y.goroutine.rank + 2 * y.chunkCh.buf.length + y.pc.rank +
    if y.ctx = .live then 1 else 0

theorem takeChunk_moves (blake3 : Bytes → Hash) (env : UploadEnv) (y : Pipeline)
    (c : Chunker.Chunk) :
    (y.takeChunk blake3 env c).split = y.split ∧
      (y.takeChunk blake3 env c).goroutine = y.goroutine ∧
      (y.takeChunk blake3 env c).ctx = y.ctx ∧
      (y.takeChunk blake3 env c).chunkCh = y.chunkCh ∧
      (y.takeChunk blake3 env c).pc.rank ≤ 4 := by
  unfold Pipeline.takeChunk
  dsimp only
  split
  · exact ⟨rfl, rfl, rfl, rfl, by simp [LoopPc.rank, Pipeline.fail]⟩
  · exact ⟨rfl, rfl, rfl, rfl, Nat.le_refl _⟩

/-- A step of the caller takes a chunk or goes on behind the loop; it leaves the goroutine. -/
theorem callStep_moves (hs : y.callStep blake3 env = some y') :
    y'.split = y.split ∧ y'.goroutine = y.goroutine ∧ y'.ctx = y.ctx ∧
      2 * y'.chunkCh.buf.length + y'.pc.rank < 2 * y.chunkCh.buf.length + y.pc.rank := by
  unfold Pipeline.callStep at hs
  cases hpc : y.pc with
  | next =>
    rw [hpc] at hs
    obtain ⟨hbuf, -⟩ := y.chunkCh.tryRecv_spec
    cases hr : y.chunkCh.tryRecv with
    | mk c chunkCh =>
      rw [hr] at hs hbuf
      cases c with
      | some c =>
        cases hs
        refine ⟨rfl, rfl, rfl, ?_⟩
        rw [← hbuf]
        simp only [Option.toList_some, List.cons_append, List.nil_append, List.length_cons,
          LoopPc.rank]
        omega
      | none =>
        dsimp only at hs
        split at hs
        · cases hs
          exact ⟨rfl, rfl, rfl, by simp [LoopPc.rank]⟩
        · cases hs
  | chunk c =>
    rw [hpc] at hs
    cases hs
    obtain ⟨h1, h2, h3, h4, hrank⟩ := takeChunk_moves blake3 env y c
    refine ⟨h1, h2, h3, ?_⟩
    rw [h4, LoopPc.rank]
    omega
  | splitErr =>
    rw [hpc] at hs
    dsimp only at hs
    split at hs <;> cases hs <;>
      exact ⟨rfl, rfl, rfl, by simp [LoopPc.rank, Pipeline.fail, Pipeline.cancel]⟩
  | commit =>
    rw [hpc] at hs
    dsimp only at hs
    split at hs <;> cases hs <;>
      exact ⟨rfl, rfl, rfl, by simp [LoopPc.rank, Pipeline.fail, Pipeline.cancel]⟩
  | failed e session =>
    rw [hpc] at hs
    dsimp only at hs
    split at hs <;> cases hs <;> exact ⟨rfl, rfl, rfl, by simp [LoopPc.rank]⟩
  | returned r => rw [hpc] at hs; cases hs

/-- **Every step comes closer to the end**: a chunk sent costs the caller two steps. -/
theorem PipelineInv.step_rank {a : PipelineAction}
    (h : PipelineInv blake3 env cfg fileName reader d y)
    (hs : y.step blake3 env cfg a = some y') : y'.rank < y.rank := by
  unfold Pipeline.step at hs
  rw [if_neg (by rw [h.calm]; decide)] at hs
  cases a with
  | split signal =>
    rcases splitStep_cases hs with ⟨hg, err, hret, hsend⟩ | ⟨hg, hfinds, split, hstep, hsend⟩ |
      ⟨hg, hclose⟩
    · obtain ⟨c', rfl, -⟩ := send_open h.errOpen hsend
      simp only [Pipeline.rank, hg, SplitPc.rank]
      omega
    · have hlt := Chunker.step_rank_lt hstep
      rcases hsend with ⟨-, rfl⟩ | ⟨c, -, hsend⟩
      · simp only [Pipeline.rank]
        omega
      · obtain ⟨c', rfl, hbuf, -⟩ := send_open (h.open (by rw [hg]; decide)) hsend
        simp only [Pipeline.rank, hbuf, List.length_append, List.length_singleton]
        omega
    · have hopen := h.open (by rw [hg]; decide)
      rw [Channel.close_open hopen] at hclose
      rcases hclose with ⟨chunkCh, hc, rfl⟩ | ⟨p, hc, -⟩
      · cases hc
        simp only [Pipeline.rank, hg, SplitPc.rank]
        omega
      · cases hc
  | call =>
    have hstep := callStep_moves hs
    simp only [Pipeline.rank, hstep.1, hstep.2.1, hstep.2.2.1]
    have := hstep.2.2.2
    omega
  | ctxDone err =>
    dsimp only at hs
    split at hs
    · next hctx =>
      cases hs
      have hdone : ¬ Chunker.Signal.done err = .live := fun h' => by cases h'
      simp only [Pipeline.rank, hctx, if_true, if_neg hdone]
      omega
    · cases hs

theorem trySend_room {α : Type} {c : Channel α} (hopen : c.closed = false) (hroom : ¬ c.full)
    (x : α) : ∃ c', c.trySend x = .ok (true, c') := by
  rcases Channel.trySend_open hopen x with ⟨hfull, -⟩ | ⟨-, c', ht, -⟩
  · exact absurd hfull hroom
  · exact ⟨c', ht⟩

/-- A step of `Split` can be taken with any signal that the context allows, if there is room for the
chunk that it sends. -/
theorem splitStep_enabled (hg : y.goroutine = .running) (hpc : ∀ r, y.split.pc ≠ .returned r)
    (hopen : y.chunkCh.closed = false) {signal : Chunker.Signal} (hfinds : y.finds signal = true)
    (hroom : signal = .live → y.split.pc ≠ .poll → ¬ y.chunkCh.full) :
    (y.splitStep cfg signal).isSome := by
  obtain ⟨split, hstep⟩ := Option.isSome_iff_exists.1 (Chunker.step_isSome cfg hpc signal)
  unfold Pipeline.splitStep
  rw [hg]
  dsimp only
  split
  · next r hr => exact absurd hr (hpc r)
  · rw [if_pos hfinds, hstep, Option.bind_some]
    rcases Chunker.step_out hstep with hout | ⟨hlive, c, hout⟩
    · rw [hout, List.drop_length]
      rfl
    · have hpoll : y.split.pc ≠ .poll := fun hp => by
        subst hlive
        rw [Chunker.step, hp] at hstep
        cases hstep
        have hlen := congrArg List.length hout
        rw [List.length_append, List.length_singleton] at hlen
        dsimp only at hlen
        omega
      obtain ⟨c', ht⟩ := trySend_room hopen (hroom hlive hpoll) c
      rw [hout, List.drop_left]
      dsimp only
      rw [Pipeline.send, ht]
      rfl

theorem callStep_enabled (hnext : y.pc = .next → y.chunkCh.buf ≠ [] ∨ y.chunkCh.closed = true)
    (herr : y.pc = .splitErr → y.splitErrCh.buf ≠ []) :
    (∃ r, y.pc = .returned r) ∨ (y.callStep blake3 env).isSome := by
  unfold Pipeline.callStep
  cases hpc : y.pc with
  | next =>
    refine .inr ?_
    obtain ⟨-, -, -, hnone⟩ := y.chunkCh.tryRecv_spec
    cases hr : y.chunkCh.tryRecv with
    | mk c chunkCh =>
      rw [hr] at hnone
      cases c with
      | some c => rfl
      | none =>
        rcases hnext hpc with hne | hcl
        · exact absurd (hnone.1 rfl) hne
        · dsimp only
          rw [if_pos hcl]
          rfl
  | chunk c => exact .inr rfl
  | splitErr =>
    refine .inr ?_
    obtain ⟨-, -, -, hnone⟩ := y.splitErrCh.tryRecv_spec
    cases hr : y.splitErrCh.tryRecv with
    | mk r splitErrCh =>
      rw [hr] at hnone
      cases r with
      | none => exact absurd (hnone.1 rfl) (herr hpc)
      | some r => cases r <;> rfl
  | commit =>
    refine .inr ?_
    dsimp only
    split <;> rfl
  | failed e session =>
    refine .inr ?_
    dsimp only
    split <;> rfl
  | returned r => exact .inl ⟨r, rfl⟩

/-- **Neither thread waits for ever.** Until both are at their end one of them has a step: the
goroutine waits for room in `chunkCh` just while the caller is still to receive, or finds its
context done. -/
theorem PipelineInv.progress (h : PipelineInv blake3 env cfg fileName reader d y) :
    y.over ∨ ∃ a, (∀ err, a ≠ .ctxDone err) ∧ (y.step blake3 env cfg a).isSome := by
  have hcalm : ¬ y.panic.isSome = true := by rw [h.calm]; decide
  have hsplit : ∀ signal, (y.splitStep cfg signal).isSome →
      ∃ a, (∀ err, a ≠ .ctxDone err) ∧ (y.step blake3 env cfg a).isSome := fun signal hs =>
    ⟨.split signal, (by rintro _ ⟨⟩), by rw [Pipeline.step, if_neg hcalm]; exact hs⟩
  have hcall : (y.callStep blake3 env).isSome →
      ∃ a, (∀ err, a ≠ .ctxDone err) ∧ (y.step blake3 env cfg a).isSome := fun hs =>
    ⟨.call, (by rintro _ ⟨⟩), by rw [Pipeline.step, if_neg hcalm]; exact hs⟩
  cases hg : y.goroutine with
  | running =>
    have hopen := h.open (by rw [hg]; decide)
    by_cases hret : ∃ r, y.split.pc = .returned r
    · -- the result of `Split` always has room
      obtain ⟨r, hret⟩ := hret
      have hroom : ¬ y.splitErrCh.full := by
        rw [Channel.full, h.errEmpty hg, h.errCap]
        decide
      obtain ⟨c', ht⟩ := trySend_room h.errOpen hroom r
      refine .inr (hsplit .live ?_)
      simp only [Pipeline.splitStep, hg, hret, Pipeline.send, ht, Option.isSome_some]
    · have hpc : ∀ r, y.split.pc ≠ .returned r := fun r hr => hret ⟨r, hr⟩
      cases hctx : y.pipelineCtx with
      | done err =>
        refine .inr (hsplit (.done err) (splitStep_enabled hg hpc hopen ?_ fun h' => by cases h'))
        simp only [Pipeline.finds, hctx, decide_true]
      | live =>
        have hfinds : y.finds .live = true := by simp [Pipeline.finds, hctx]
        by_cases hfull : y.chunkCh.full
        · have hbuf : y.chunkCh.buf ≠ [] := fun hnil => by
            rw [Channel.full, hnil, h.cap] at hfull
            cases hfull
          have hearly : y.pc.early := by
            by_contra h'
            exact h.cancelled h' hctx
          have herr : y.pc = .splitErr → y.splitErrCh.buf ≠ [] := fun hpc' => by
            have hc := h.call
            rw [hpc'] at hc
            rw [hc.1] at hg
            cases hg
          rcases callStep_enabled (fun _ => .inl hbuf) herr with ⟨r, hr⟩ | hs
          · rw [hr] at hearly
            exact hearly.elim
          · exact .inr (hcall hs)
        · exact .inr (hsplit .live (splitStep_enabled hg hpc hopen hfinds fun _ _ => hfull))
  | closing =>
    refine .inr (hsplit .live ?_)
    simp only [Pipeline.splitStep, hg, Channel.close_open (h.open (by rw [hg]; decide)),
      Option.isSome_some]
  | ended =>
    obtain ⟨r, hret, hsent⟩ := h.errSent (by rw [hg]; decide)
    have herr : y.pc = .splitErr → y.splitErrCh.buf ≠ [] := fun hpc => by
      rw [hsent (by rw [hpc]; trivial)]
      exact List.cons_ne_nil _ _
    rcases callStep_enabled (fun _ => .inr (h.closed.2 hg)) herr with hr | hs
    · exact .inl ⟨hg, hr⟩
    · exact .inr (hcall hs)

def LoopPc.succeeded : LoopPc → Bool
  | .returned result => result.toOption.isSome
  | _ => false

theorem LoopPc.eq_returned {pc : LoopPc} (h : pc.succeeded = true) :
    ∃ r, pc = .returned (.ok r) := by
  cases pc with
  | returned result =>
    cases result with
    | ok r => exact ⟨r, rfl⟩
    | error e => cases h
  | _ => cases h

/-- **The pipeline computes the upload.** However the goroutine and the caller take turns, whatever
the reader returns and whenever the request's context ends: no operation on a channel panics, the
run is no longer than `rank` says, and until both threads are at their end one of them has a step,
so the goroutine ends with every call. What the caller returns, and the disk it leaves, are those
of the sequential call on the bytes that the reader delivers, cut off behind some chunk if the
stream or the context ended with an error; an upload succeeds just with the whole stream. -/
theorem pipeline_refines (blake3 : Bytes → Hash) (env : UploadEnv) (cfg : Config)
    (fileName : String) (reader : List Chunker.Read) (d : Disk) {as : List PipelineAction}
    {y : Pipeline} (h : Runs.exec (Pipeline.step blake3 env cfg)
      (.start cfg env fileName reader d) as = some y) :
    y.panic = none ∧
    as.length ≤ (Pipeline.start cfg env fileName reader d).rank ∧
    (y.over ∨ ∃ a, (∀ err, a ≠ .ctxDone err) ∧ (y.step blake3 env cfg a).isSome) ∧
    ∀ r, y.pc = .returned r → ∃ stop,
      processUpload blake3 (env.stopping stop) cfg fileName (Chunker.delivered reader) d =
        (r, y.disk) ∧
      (∀ k text, stop = some (k, text) →
        Chunker.outcome reader = some text ∨ y.ctx = .done text) ∧
      ∀ result, r = .ok result → stop = none ∧ Chunker.outcome reader = none := by
  obtain ⟨hinv, hlen⟩ := Runs.exec_inv_length Pipeline.rank
    (P := PipelineInv blake3 env cfg fileName reader d) start_pipelineInv
    (fun _ _ _ hi hs => ⟨hi.step hs, hi.step_rank hs⟩) h
  refine ⟨hinv.calm, by omega, hinv.progress, fun r hr => ?_⟩
  have hcall := hinv.call
  rw [hr] at hcall
  obtain ⟨stop, hstop, hres, hok⟩ := hcall
  exact ⟨stop, hres, hstop, hok⟩

/-- Five bytes in two reads, two of the three chunks stored while the third is still to be cut. -/
theorem pipeline_refines_sample :
    let reader : List Chunker.Read := [⟨[7, 8, 9], none, by decide⟩, ⟨[1, 2], some .eof, by decide⟩]
    ∃ y r, Runs.exec (Pipeline.step sampleHash (.calm 1 0) (sampleConfig 2))
        (.start (sampleConfig 2) (.calm 1 0) "a" reader .empty)
        (List.replicate 8 (.split .live) ++ List.replicate 4 .call ++
          List.replicate 5 (.split .live) ++ List.replicate 5 .call) = some y ∧
      y.pc = .returned (.ok r) ∧
      processUpload sampleHash ((UploadEnv.calm 1 0).stopping none) (sampleConfig 2) "a"
        [7, 8, 9, 1, 2] .empty = (.ok r, y.disk) := by
  intro reader
  have hrun : (Runs.exec (Pipeline.step sampleHash (.calm 1 0) (sampleConfig 2))
      (.start (sampleConfig 2) (.calm 1 0) "a" reader .empty)
      (List.replicate 8 (.split .live) ++ List.replicate 4 .call ++
        List.replicate 5 (.split .live) ++ List.replicate 5 .call)).any
        (·.pc.succeeded) = true := by
    decide +kernel
  obtain ⟨y, hy, hsucceeded⟩ := (Option.any_eq_true _ _).1 hrun
  obtain ⟨r, hret⟩ := LoopPc.eq_returned hsucceeded
  obtain ⟨-, -, -, h⟩ := pipeline_refines sampleHash (.calm 1 0) (sampleConfig 2) "a" reader
    .empty hy
  obtain ⟨stop, hres, -, hok⟩ := h _ hret
  obtain ⟨rfl, -⟩ := hok r rfl
  exact ⟨y, r, hy, hret, hres⟩

end HashBox.Vault
