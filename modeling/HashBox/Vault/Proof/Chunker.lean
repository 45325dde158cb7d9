import HashBox.Vault.Chunker

/-!
# The chunks of a stream

* `splitLoop_length`, `splitLoop_min`: no chunk is longer than the largest size, and none but the
  last is shorter than the smallest.
* `splitLoop_cut`: at a boundary nothing of what is behind it is left. The two results about
  resynchronisation are instances of it.
* `Inv`: how far `Split` has come on a reader, as the chunks sent, the bytes held and the bytes to
  come. `step_inv` keeps it for one step, whatever the reads are.
-/

namespace HashBox.FastCdc

/-! ## Sizes and boundaries -/

section
variable {cfg : Config} {masks : UInt64 × UInt64}

theorem Config.validate_ok (hv : cfg.validate = .ok ()) :
    0 < cfg.minSize ∧ cfg.minSize ≤ cfg.avgSize ∧ cfg.avgSize ≤ cfg.maxSize := by
  unfold Config.validate at hv
  split at hv
  · cases hv
  · split at hv
    · cases hv
    · omega

theorem shouldCut_min {size : Int} {fp small large : UInt64}
    (h : shouldCut size fp cfg small large = true) : cfg.minSize ≤ size := by
  unfold shouldCut at h
  split at h
  · cases h
  · omega

theorem shouldCut_max {size : Int} {fp small large : UInt64} (hv : cfg.minSize ≤ cfg.maxSize)
    (h : ¬ shouldCut size fp cfg small large = true) : size < cfg.maxSize := by
  unfold shouldCut at h
  split at h
  · omega
  · split at h
    · exact absurd rfl h
    · omega

theorem splitLoop_length (hv : cfg.validate = .ok ()) (bytes : Bytes) :
    ∀ (chunkBuf : Bytes) (fp : UInt64), (chunkBuf.length : Int) < cfg.maxSize →
      ∀ c ∈ splitLoop cfg masks chunkBuf fp bytes, (c.length : Int) ≤ cfg.maxSize := by
  obtain ⟨h0, h1, h2⟩ := Config.validate_ok hv
  induction bytes with
  | nil =>
    intro chunkBuf fp hb c hc
    unfold splitLoop at hc
    split at hc
    · cases hc
    · rw [List.mem_singleton.1 hc]; omega
  | cons b rest ih =>
    intro chunkBuf fp hb c hc
    unfold splitLoop at hc
    dsimp only at hc
    split at hc
    · rcases List.mem_cons.1 hc with rfl | hc
      · rw [List.length_append, List.length_singleton]; omega
      · exact ih [] 0 (by simp only [List.length_nil]; omega) c hc
    · exact ih _ _ (shouldCut_max (by omega) ‹_›) c hc

theorem splitLoop_min (bytes : Bytes) : ∀ (chunkBuf : Bytes) (fp : UInt64),
    ∀ c ∈ (splitLoop cfg masks chunkBuf fp bytes).dropLast, cfg.minSize ≤ c.length := by
  induction bytes with
  | nil =>
    intro chunkBuf fp c hc
    unfold splitLoop at hc
    split at hc <;> cases hc
  | cons b rest ih =>
    intro chunkBuf fp c hc
    unfold splitLoop at hc
    dsimp only at hc
    split at hc
    · rename_i hcut
      by_cases hnil : splitLoop cfg masks [] 0 rest = []
      · rw [hnil] at hc; cases hc
      · rw [List.dropLast_cons_of_ne_nil hnil] at hc
        rcases List.mem_cons.1 hc with rfl | hc
        · exact shouldCut_min hcut
        · exact ih _ _ c hc
    · exact ih _ _ c hc

/-- **At a boundary the loop starts afresh.** The chunks up to it are those of the bytes up to it,
the chunks behind it those of the bytes behind it. -/
theorem splitLoop_cut {q : List Bytes} (bytes : Bytes) :
    ∀ (chunkBuf : Bytes) (fp : UInt64) (r : List Bytes), r ≠ [] →
      splitLoop cfg masks chunkBuf fp bytes = r ++ q →
      ∃ u v, bytes = u ++ v ∧ splitLoop cfg masks chunkBuf fp u = r ∧
        splitLoop cfg masks [] 0 v = q := by
  induction bytes with
  | nil =>
    intro chunkBuf fp r hr h
    have hlen : (splitLoop cfg masks chunkBuf fp []).length ≤ 1 := by
      unfold splitLoop; split <;> simp
    have hpos := List.length_pos_iff.2 hr
    rw [h, List.length_append] at hlen
    have hq : q = [] := List.length_eq_zero_iff.1 (by omega)
    subst hq
    exact ⟨[], [], rfl, by rw [h, List.append_nil], by simp [splitLoop]⟩
  | cons b rest ih =>
    intro chunkBuf fp r hr h
    by_cases hcut : shouldCut (chunkBuf ++ [b]).length ((fp <<< 1) + gear b) cfg masks.1 masks.2
    · have hstep : ∀ l, splitLoop cfg masks chunkBuf fp (b :: l) =
          (chunkBuf ++ [b]) :: splitLoop cfg masks [] 0 l := fun l => by
        conv_lhs => unfold splitLoop
        exact if_pos hcut
      obtain ⟨c, r', rfl⟩ := List.exists_cons_of_ne_nil hr
      rw [hstep, List.cons_append] at h
      obtain ⟨hc, ht⟩ := List.cons.inj h
      subst hc
      -- the boundary is right behind this chunk, or behind a later one
      by_cases hr' : r' = []
      · subst hr'
        exact ⟨[b], rest, rfl, by rw [hstep]; simp [splitLoop], ht⟩
      · obtain ⟨u, v, rfl, hu, hq⟩ := ih _ _ r' hr' ht
        exact ⟨b :: u, v, rfl, by rw [hstep, hu], hq⟩
    · have hstep : ∀ l, splitLoop cfg masks chunkBuf fp (b :: l) =
          splitLoop cfg masks (chunkBuf ++ [b]) ((fp <<< 1) + gear b) l := fun l => by
        conv_lhs => unfold splitLoop
        exact if_neg hcut
      rw [hstep] at h
      obtain ⟨u, v, rfl, hu, hq⟩ := ih _ _ r hr h
      exact ⟨b :: u, v, rfl, by rw [hstep, hu], hq⟩

theorem chunks_cut {p q : List Bytes} {bytes : Bytes} (h : chunks cfg bytes = p ++ q) :
    chunks cfg p.flatten = p ∧ chunks cfg q.flatten = q := by
  obtain rfl | hp := eq_or_ne p []
  · rw [List.nil_append] at h
    refine ⟨by simp [chunks, splitLoop], ?_⟩
    rw [← h, chunks_flatten]
  · obtain ⟨u, v, rfl, hu, hv⟩ := splitLoop_cut bytes [] 0 p hp h
    have hu' : p.flatten = u := by rw [← hu]; exact chunks_flatten cfg u
    have hv' : q.flatten = v := by rw [← hv]; exact chunks_flatten cfg v
    exact ⟨by rw [hu']; exact hu, by rw [hv']; exact hv⟩

/-- The chunks behind a boundary at offset `n` are those of the bytes from there on. -/
theorem chunks_after {p q : List Bytes} {bytes : Bytes} (h : chunks cfg bytes = p ++ q) :
    q = chunks cfg (bytes.drop p.flatten.length) := by
  have hb : bytes = p.flatten ++ q.flatten := by
    rw [← List.flatten_append, ← h, chunks_flatten]
  rw [hb, List.drop_left, (chunks_cut h).2]

end

/-- **Chunking resynchronises.** Where two streams have a boundary at the same place of a common
suffix, what follows it is cut alike, and as the rest of the suffix alone would be; a run of
consecutive chunks is cut into itself. -/
theorem split_resync (cfg : Config) (hv : cfg.validate = .ok ()) :
    (∀ (a b s : Bytes) (i : Nat) (p q p' q' : List Bytes), i ≤ s.length →
      split cfg (a ++ s) = .ok (p ++ q) → p.flatten.length = a.length + i →
      split cfg (b ++ s) = .ok (p' ++ q') → p'.flatten.length = b.length + i →
      q = q' ∧ split cfg (s.drop i) = .ok q) ∧
    ∀ (x : Bytes) (p r q : List Bytes), split cfg x = .ok (p ++ r ++ q) →
      split cfg r.flatten = .ok r := by
  have hok : ∀ x, split cfg x = .ok (chunks cfg x) := fun x => by rw [split, hv]; rfl
  simp only [hok, Except.ok.injEq]
  refine ⟨fun a b s i p q p' q' _ ha hp hb hp' => ?_, fun x p r q hx => ?_⟩
  · have hq := chunks_after ha
    have hq' := chunks_after hb
    rw [hp, List.drop_append, List.drop_eq_nil_of_le (by omega), Nat.add_sub_cancel_left,
      List.nil_append] at hq
    rw [hp', List.drop_append, List.drop_eq_nil_of_le (by omega), Nat.add_sub_cancel_left,
      List.nil_append] at hq'
    exact ⟨hq.trans hq'.symm, hq.symm⟩
  · exact (chunks_cut (chunks_cut hx).1).2

/-- Two streams with the common suffix `1, 2, 3, 4` and a boundary behind its first byte. -/
theorem split_resync_pairs :
    split ⟨2, 2, 2⟩ [2, 3, 4] = .ok [[2, 3], [4]] ∧ split ⟨2, 2, 2⟩ [9, 1, 2, 3] =
      .ok [[9, 1], [2, 3]] := by
  obtain ⟨hsync, hrun⟩ := split_resync ⟨2, 2, 2⟩ (by decide)
  exact ⟨(hsync [9] [9, 9, 9] [1, 2, 3, 4] 1 [[9, 1]] [[2, 3], [4]] [[9, 9], [9, 1]] [[2, 3], [4]]
      (by decide) (by rfl) (by decide) (by rfl) (by decide)).2,
    hrun [7, 8, 9, 1, 2, 3, 4] [[7, 8]] [[9, 1], [2, 3]] [[4]] (by rfl)⟩

namespace Chunker

open Slices

/-! ## What the memory holds -/

/-- `emitted` has been sent, each chunk from an array of its own, and `buf` is held. -/
structure Holds (cfg : Config) (s : State) (emitted : List Bytes) (buf : Bytes) : Prop where
  mem : ∃ r c, s.mem = r :: c :: emitted ∧ r.length = readBufSize ∧
    c.length = cfg.maxSize.toNat ∧ c.take buf.length = buf
  readBuf : s.readBuf = ⟨0, readBufSize, readBufSize⟩
  chunkBuf : s.chunkBuf = ⟨1, buf.length, cfg.maxSize.toNat⟩
  index : s.chunkIndex = emitted.length
  out : s.out = emitted.mapIdx fun i c => ⟨i, ⟨i + 2, c.length, c.length⟩, c.length⟩

variable {cfg : Config} {s s' : State} {emitted : List Bytes} {buf : Bytes}

theorem start_holds (cfg : Config) (reader : List Read) : Holds cfg (start cfg reader) [] [] where
  mem := ⟨_, _, rfl, List.length_replicate, List.length_replicate, rfl⟩
  readBuf := rfl
  chunkBuf := rfl
  index := rfl
  out := rfl

theorem Holds.read_chunkBuf (h : Holds cfg s emitted buf) : Slices.read s.mem s.chunkBuf = buf := by
  obtain ⟨r, c, hm, _, _, hc⟩ := h.mem
  rw [hm, h.chunkBuf]
  exact hc

/-- What the sent chunks show is what was sent, whatever the buffers hold by now. -/
theorem Holds.sent (h : Holds cfg s emitted buf) : s.sent = numbered emitted := by
  obtain ⟨r, c, hm, _⟩ := h.mem
  rw [State.sent, h.out, hm, numbered]
  refine List.ext_getElem (by simp) fun i hi _ => ?_
  have hi : i < emitted.length := by simpa using hi
  simp [Slices.read, arrayAt, List.getD_eq_getElem?_getD, hi]

theorem Holds.fill (h : Holds cfg s emitted buf) {data : Bytes} (hd : data.length ≤ readBufSize) :
    Holds cfg { s with mem := fill s.mem s.readBuf data } emitted buf := by
  obtain ⟨r, c, hm, hr, hc, ht⟩ := h.mem
  refine { h with mem := ⟨data ++ r.drop data.length, c, ?_, ?_, hc, ht⟩ }
  · simp only [Slices.fill, h.readBuf, hm]
    rfl
  · rw [List.length_append, List.length_drop]; omega

theorem Holds.emit (h : Holds cfg s emitted buf) (hb : buf ≠ []) :
    ∃ s', emit s .live = .ok s' ∧ Holds cfg s' (emitted ++ [buf]) [] ∧ s'.fingerprint = 0 ∧
      s'.reader = s.reader ∧ s'.pc = s.pc ∧ arrayAt s'.mem 0 = arrayAt s.mem 0 := by
  have hlen : s.chunkBuf.len = buf.length := by rw [h.chunkBuf]
  have hpos := List.length_pos_iff.2 hb
  obtain ⟨r, c, hm, hr, hc, ht⟩ := h.mem
  have hmem : copy (make s.mem 0 s.chunkBuf.len s.chunkBuf.len).1
      (make s.mem 0 s.chunkBuf.len s.chunkBuf.len).2 s.chunkBuf = s.mem ++ [buf] := by
    rw [copy_make 0 (by rw [h.chunkBuf, hm]; simp) (by rw [h.read_chunkBuf, hlen]),
      h.read_chunkBuf]
  rw [Chunker.emit, if_neg (by omega)]
  refine ⟨_, rfl, ?_, rfl, rfl, rfl, ?_⟩
  · constructor
    · exact ⟨r, c, hmem.trans (by rw [hm]; rfl), hr, hc, rfl⟩
    · exact h.readBuf
    · simp only [Slice.upTo, h.chunkBuf, List.length_nil]
    · simp [h.index]
    · simp [h.out, h.index, hm, hlen, List.mapIdx_append]
  · refine (congrArg (arrayAt · 0) hmem).trans ?_
    rw [arrayAt_append _ (by rw [hm]; simp)]

theorem Holds.append (h : Holds cfg s emitted buf) (hb : buf.length < cfg.maxSize.toNat) (b : UInt8)
    (fp : UInt64) (pc : Pc) :
    Holds cfg { s with
      mem := (Slices.append s.mem s.chunkBuf b).1, chunkBuf := (Slices.append s.mem s.chunkBuf b).2
      fingerprint := fp, pc } emitted (buf ++ [b]) := by
  obtain ⟨r, c, hm, hr, hc, ht⟩ := h.mem
  have hmem : Slices.append s.mem s.chunkBuf b =
      (r :: c.set buf.length b :: emitted, ⟨1, buf.length + 1, cfg.maxSize.toNat⟩) := by
    rw [Slices.append, h.chunkBuf, if_pos hb, hm]
    rfl
  rw [hmem]
  constructor
  · refine ⟨r, _, rfl, hr, by rw [List.length_set, hc], ?_⟩
    rw [List.length_append, List.length_singleton, take_set_succ b (by omega), ht]
  · exact h.readBuf
  · rw [List.length_append, List.length_singleton]
  · exact h.index
  · exact h.out

/-! ## How far the run has come -/

/-- The bytes that are still to come. -/
def ahead (s : State) : Bytes :=
  match s.pc with
  | .read | .poll => delivered s.reader
  | .byte i n err =>
    ((arrayAt s.mem 0).take n).drop i ++ if err.isSome then [] else delivered s.reader
  | .flush | .returned _ => []

/-- What `Split` will return, from where it is with these reads to come. -/
def pending (pc : Pc) (reader : List Read) : Option String :=
  match pc with
  | .read | .poll => outcome reader
  | .byte _ _ err => match err with
    | none => outcome reader
    | some err => err.outcome
  | .flush => none
  | .returned r => r

/-- The chunks sent and those of the bytes held and to come are the chunks of the stream. -/
structure Inv (cfg : Config) (reader : List Read) (s : State) (emitted : List Bytes) (buf : Bytes) :
    Prop extends Holds cfg s emitted buf where
  room : buf.length < cfg.maxSize.toNat
  cuts : emitted ++ splitLoop cfg (cutMasks cfg.avgSize) buf s.fingerprint (ahead s) =
    chunks cfg (delivered reader)
  result : pending s.pc s.reader = outcome reader
  filled : ∀ i n err, s.pc = .byte i n err → n ≤ readBufSize
  ended : s.pc = .returned none → buf = []

variable {reader : List Read}

theorem start_inv (hv : cfg.validate = .ok ()) (reader : List Read) :
    Inv cfg reader (start cfg reader) [] [] := by
  have hpc : (start cfg reader).pc = .read := by simp only [start, hv]
  obtain ⟨h0, h1, h2⟩ := Config.validate_ok hv
  refine { start_holds cfg reader with
    room := ?_, cuts := ?_, result := ?_, filled := ?_, ended := ?_ }
  · rw [List.length_nil]; omega
  · rw [List.nil_append, ahead, hpc]; rfl
  · rw [hpc]; rfl
  · intro i n err h; rw [hpc] at h; cases h
  · exact fun _ => rfl

/-- The byte loop takes the next byte that is to come. -/
theorem Inv.takeByte (hv : cfg.validate = .ok ()) (h : Inv cfg reader s emitted buf) {i n : Nat}
    {err : Option ReadError} (hpc : s.pc = .byte i n err) (hi : i < n) :
    ∃ emitted' buf', Inv cfg reader (takeByte cfg s i n err .live) emitted' buf' := by
  obtain ⟨h0, h1, h2⟩ := Config.validate_ok hv
  have hn := h.filled i n err hpc
  obtain ⟨r, c, hm, hr, hc, ht⟩ := h.mem
  have harr : arrayAt s.mem 0 = r := by rw [hm]; rfl
  have hlen : i < (r.take n).length := by rw [List.length_take]; omega
  set b := r.getD i 0 with hb
  set rest := (r.take n).drop (i + 1) ++ if err.isSome then [] else delivered s.reader with hrest
  have hahead : ahead s = b :: rest := by
    rw [ahead, hpc, harr]
    dsimp only
    rw [List.drop_eq_getElem_cons hlen, List.getElem_take, List.cons_append, hb,
      List.getD_eq_getElem?_getD, List.getElem?_eq_getElem (by omega)]
    rfl
  have hbyte : (arrayAt s.mem s.readBuf.array).getD i 0 = b := by rw [h.readBuf, harr]
  have hres := h.result
  rw [hpc] at hres
  have hcuts := h.cuts
  rw [hahead] at hcuts
  unfold splitLoop at hcuts
  dsimp only at hcuts
  have hold := h.toHolds.append h.room b ((s.fingerprint <<< 1) + gear b) (.byte (i + 1) n err)
  have hread : arrayAt (Slices.append s.mem s.chunkBuf b).1 0 = r := by
    rw [Slices.append, h.chunkBuf, if_pos h.room, hm]; rfl
  have hcl : (Slices.append s.mem s.chunkBuf b).2.len = (buf ++ [b]).length := by
    have := hold.chunkBuf; simp only at this; rw [this]
  unfold Chunker.takeByte
  dsimp only
  rw [hbyte, hcl]
  split at hcuts
  · rename_i hcut
    rw [if_pos hcut]
    obtain ⟨s', he, hs', hfp, hrd, hpc', harr'⟩ := hold.emit (by simp)
    rw [he]
    refine ⟨emitted ++ [buf ++ [b]], [],
      { hs' with room := ?_, cuts := ?_, result := ?_, filled := ?_, ended := ?_ }⟩
    · rw [List.length_nil]; omega
    · show _ ++ splitLoop cfg _ [] s'.fingerprint (ahead s') = _
      rw [hfp, ahead, hpc', harr', hrd]
      simp only [hread]
      rw [List.append_assoc]; exact hcuts
    · show pending s'.pc s'.reader = _
      rw [hpc', hrd]; exact hres
    · intro i' n' err' h'
      cases hpc'.symm.trans h'
      exact hn
    · exact fun _ => rfl
  · rename_i hcut
    rw [if_neg hcut]
    refine ⟨emitted, buf ++ [b],
      { hold with room := ?_, cuts := ?_, result := ?_, filled := ?_, ended := ?_ }⟩
    · have := shouldCut_max (by omega) hcut
      omega
    · simp only [ahead, hread]; exact hcuts
    · exact hres
    · intro i' n' err' h'
      cases h'
      exact hn
    · intro h'; cases h'

theorem Inv.goto (h : Inv cfg reader s emitted buf) {pc : Pc} (ha : ahead { s with pc } = ahead s)
    (hp : pending pc s.reader = pending s.pc s.reader)
    (hf : ∀ i n err, pc = .byte i n err → n ≤ readBufSize := by intro _ _ _ h'; cases h')
    (he : pc = .returned none → buf = [] := by intro h'; cases h') :
    Inv cfg reader { s with pc } emitted buf :=
  { h.toHolds with
    room := h.room
    cuts := by rw [ha]; exact h.cuts
    result := hp.trans h.result
    filled := hf
    ended := he }

theorem Inv.read (h : Inv cfg reader s emitted buf) (hpc : s.pc = .read) {r : Read}
    {rest : List Read} (hrd : s.reader = r :: rest) :
    Inv cfg reader { s with
      mem := fill s.mem s.readBuf r.data, reader := rest
      pc := .byte 0 r.data.length r.err } emitted buf := by
  have hcuts := h.cuts
  have hres := h.result
  rw [ahead, hpc, hrd] at hcuts
  rw [hpc, hrd] at hres
  refine { h.toHolds.fill r.fits with
    room := h.room, cuts := ?_, result := hres, filled := ?_, ended := ?_ }
  · have hdata : (arrayAt (fill s.mem s.readBuf r.data) 0).take r.data.length = r.data := by
      obtain ⟨ra, c, hm, _⟩ := h.mem
      rw [fill, h.readBuf, hm]
      exact List.take_left
    simp only [ahead, hdata, List.drop_zero]
    rw [← hcuts, delivered]
    split <;> simp
  · intro i n err h'; cases h'; exact r.fits
  · intro h'; cases h'

/-- Behind the last byte of a read its error says how to go on. -/
theorem Inv.readEnd (h : Inv cfg reader s emitted buf) {i n : Nat} {err : Option ReadError}
    (hpc : s.pc = .byte i n err) (hi : ¬ i < n) :
    Inv cfg reader (readEnd s err) emitted buf := by
  have hahead : ahead s = if err.isSome then [] else delivered s.reader := by
    simp only [ahead, hpc]
    rw [List.drop_eq_nil_of_le (by rw [List.length_take]; omega), List.nil_append]
  rcases err with _ | _ | text <;> exact h.goto (by rw [hahead]; rfl) (by rw [hpc]; rfl)

/-- The last `emit` sends what is held, if anything. -/
theorem Inv.flush (h : Inv cfg reader s emitted buf) (hpc : s.pc = .flush) :
    ∃ emitted' buf', Inv cfg reader
      (orReturn s ((emit s .live).map fun s => { s with pc := .returned none })) emitted' buf' := by
  by_cases hb : buf = []
  · have he : emit s .live = .ok s := if_pos (by rw [h.chunkBuf, hb]; rfl)
    rw [he]
    exact ⟨emitted, buf, h.goto (by simp only [ahead, hpc]) (by rw [hpc]; rfl)
      (fun _ _ _ h' => by cases h') (fun _ => hb)⟩
  · obtain ⟨s', he, hs', hfp, _⟩ := h.toHolds.emit hb
    have hcuts := h.cuts
    have hres := h.result
    rw [ahead, hpc] at hcuts
    rw [hpc] at hres
    rw [he]
    refine ⟨emitted ++ [buf], [], { hs' with
      room := ?_, cuts := ?_, result := hres, filled := ?_, ended := fun _ => rfl }⟩
    · have := h.room; rw [List.length_nil]; omega
    · rw [← hcuts]
      simp [splitLoop, ahead, Except.map, orReturn, hb]
    · intro i n err h'; cases h'

/-- **One step keeps the account**, whatever the reader returns. -/
theorem step_inv (hv : cfg.validate = .ok ()) (h : Inv cfg reader s emitted buf)
    (hs : step cfg s .live = some s') : ∃ emitted' buf', Inv cfg reader s' emitted' buf' := by
  unfold step at hs
  cases hpc : s.pc with
  | read =>
    rw [hpc] at hs
    cases hrd : s.reader with
    | nil =>
      rw [hrd] at hs
      cases hs
      have hend : Inv cfg reader { s with pc := .byte 0 0 (some .eof) } emitted buf :=
        h.goto (by simp [ahead, hpc, hrd, delivered]) (by rw [hpc, hrd]; rfl)
          fun i n err h' => by cases h'; exact Nat.zero_le _
      exact ⟨emitted, buf, by simpa only [hrd] using hend⟩
    | cons r rest =>
      rw [hrd] at hs
      cases hs
      exact ⟨emitted, buf, h.read hpc hrd⟩
  | byte i n err =>
    rw [hpc] at hs
    cases hs
    split
    · exact h.takeByte hv hpc ‹_›
    · exact ⟨emitted, buf, h.readEnd hpc ‹_›⟩
  | poll =>
    rw [hpc] at hs
    cases hs
    exact ⟨emitted, buf, h.goto (by simp only [ahead, hpc]) (by rw [hpc]; rfl)⟩
  | flush =>
    rw [hpc] at hs
    cases hs
    exact h.flush hpc
  | returned r =>
    rw [hpc] at hs
    cases hs

/-! ## Whole runs -/

/-- How many steps are still to come, at most. -/
def rank (s : State) : Nat :=
  let reads := s.reader.foldr (fun r n => r.data.length + 3 + n) 0
  match s.pc with
  | .read => reads + 3
  | .byte i n none => n - i + reads + 5
  | .byte i n (some _) => n - i + 2
  | .poll => reads + 4
  | .flush => 1
  | .returned _ => 0

theorem emit_live (s : State) :
    ∃ s', emit s .live = .ok s' ∧ s'.pc = s.pc ∧ s'.reader = s.reader := by
  unfold emit
  split
  · exact ⟨s, rfl, rfl, rfl⟩
  · exact ⟨_, rfl, rfl, rfl⟩

theorem takeByte_live (cfg : Config) (s : State) (i n : Nat) (err : Option ReadError) :
    (takeByte cfg s i n err .live).pc = .byte (i + 1) n err ∧
      (takeByte cfg s i n err .live).reader = s.reader := by
  unfold takeByte
  dsimp only
  split
  · obtain ⟨s', he, hpc, hrd⟩ := emit_live { s with
      mem := (Slices.append s.mem s.chunkBuf _).1, chunkBuf := (Slices.append s.mem s.chunkBuf _).2
      fingerprint := _, pc := .byte (i + 1) n err }
    rw [he]
    exact ⟨hpc, hrd⟩
  · exact ⟨rfl, rfl⟩

/-- **`Split` has a next step until it returns**, and comes closer to its end with each. -/
theorem step_rank (cfg : Config) (h : ∀ r, s.pc ≠ .returned r) :
    ∃ s', step cfg s .live = some s' ∧ rank s' < rank s := by
  unfold step
  cases hpc : s.pc with
  | read =>
    refine ⟨_, rfl, ?_⟩
    cases hrd : s.reader with
    | nil => simp [rank, hpc, hrd]
    | cons r rest =>
      cases he : r.err <;> simp [rank, hpc, hrd, he] <;> omega
  | byte i n err =>
    refine ⟨_, rfl, ?_⟩
    split
    · obtain ⟨hpc', hrd'⟩ := takeByte_live cfg s i n err
      cases err <;> simp only [rank, hpc, hpc', hrd'] <;> omega
    · rcases err with _ | _ | text <;> simp only [rank, hpc, readEnd] <;> omega
  | poll => exact ⟨_, rfl, by simp only [rank, hpc]; omega⟩
  | flush =>
    obtain ⟨s', he, _⟩ := emit_live s
    exact ⟨_, rfl, by simp [he, rank, hpc, orReturn, Except.map]⟩
  | returned r => exact absurd hpc (h r)

theorem run_inv (hv : cfg.validate = .ok ()) (h : Run cfg reader s) :
    ∃ emitted buf, Inv cfg reader s emitted buf := by
  refine Runs.Reach.inv (P := fun s => ∃ emitted buf, Inv cfg reader s emitted buf) h ?_ ?_
  · rintro _ rfl
    exact ⟨[], [], start_inv hv reader⟩
  · rintro s a s' ⟨emitted, buf, hi⟩ rfl hs
    exact step_inv hv hi hs

/-- Where `Split` has come is a beginning of the chunks of the stream, and all of them when it
returns without an error. -/
theorem run_sent (hv : cfg.validate = .ok ()) (h : Run cfg reader s) :
    s.sent <+: numbered (chunks cfg (delivered reader)) ∧ ∀ r, s.pc = .returned r →
      r = outcome reader ∧ (r = none → s.sent = numbered (chunks cfg (delivered reader))) := by
  obtain ⟨emitted, buf, hi⟩ := run_inv hv h
  rw [hi.sent, ← hi.cuts]
  refine ⟨?_, fun r hr => ⟨?_, ?_⟩⟩
  · rw [numbered, numbered, List.mapIdx_append]
    exact List.prefix_append _ _
  · have := hi.result; rw [hr] at this; exact this
  · rintro rfl
    have hb := hi.ended hr
    subst hb
    simp [ahead, hr, splitLoop]

/-- **`Split` returns**, whatever the reader does. -/
theorem run_returns (cfg : Config) (reader : List Read) :
    ∃ s, Run cfg reader s ∧ ∃ r, s.pc = .returned r := by
  refine Runs.Reach.ends rank (.init rfl) fun s _ hf => ?_
  obtain ⟨s', hs, hlt⟩ := step_rank cfg fun r hr => hf ⟨r, hr⟩
  exact ⟨.live, s', rfl, hs, hlt⟩

/-- A reader none of whose calls of `Read` fails. -/
def Clean (reader : List Read) : Prop := ∀ r ∈ reader, r.err = none ∨ r.err = some .eof

theorem Clean.outcome (h : Clean reader) : outcome reader = none := by
  induction reader with
  | nil => rfl
  | cons r rest ih =>
    obtain hr | hr := h r List.mem_cons_self
    · rw [Chunker.outcome, hr]
      exact ih fun r' hr' => h r' (List.mem_cons_of_mem _ hr')
    · rw [Chunker.outcome, hr]
      rfl

/-- **Chunking is lossless, bounded, and independent of how the bytes are read.** For the bytes a
reader delivers, in whatever reads, `Split` succeeds with the chunks of these bytes, numbered from 0
and sent with their lengths; at every moment of the run the chunks sent so far show the first of
them; they concatenate to the stream and lie within the size bounds. -/
theorem split_lossless (cfg : Config) (hv : cfg.validate = .ok ()) (bytes : Bytes) :
    ∃ cs, split cfg bytes = .ok cs ∧ cs.flatten = bytes ∧
      (∀ c ∈ cs, c ≠ [] ∧ (c.length : Int) ≤ cfg.maxSize) ∧
      (∀ c ∈ cs.dropLast, cfg.minSize ≤ c.length) ∧
      ∀ reader, Clean reader → delivered reader = bytes →
        (∃ s, Run cfg reader s ∧ s.pc = .returned none ∧ s.sent = numbered cs) ∧
        ∀ s, Run cfg reader s → s.sent <+: numbered cs ∧
          ∀ r, s.pc = .returned r → r = none ∧ s.sent = numbered cs := by
  obtain ⟨h0, h1, h2⟩ := Config.validate_ok hv
  refine ⟨chunks cfg bytes, by rw [split, hv]; rfl, chunks_flatten cfg bytes, fun c hc => ⟨?_, ?_⟩,
    splitLoop_min bytes [] 0, ?_⟩
  · exact chunks_ne_nil hc
  · exact splitLoop_length hv bytes [] 0 (by rw [List.length_nil]; omega) c hc
  · rintro reader hr rfl
    have hall : ∀ s, Run cfg reader s → ∀ r, s.pc = .returned r →
        r = none ∧ s.sent = numbered (chunks cfg (delivered reader)) := fun s hs r hpc => by
      obtain ⟨h, h'⟩ := (run_sent hv hs).2 r hpc
      rw [hr.outcome] at h
      exact ⟨h, h' h⟩
    obtain ⟨s, hs, r, hpc⟩ := run_returns cfg reader
    obtain ⟨rfl, hsent⟩ := hall s hs r hpc
    exact ⟨⟨s, hs, hpc, hsent⟩, fun s hs => ⟨(run_sent hv hs).1, hall s hs⟩⟩

/-- Five bytes in two reads, the second with the end of file. -/
theorem split_lossless_two_reads :
    ∃ s, Run ⟨2, 2, 2⟩ [⟨[7, 8, 9], none, by decide⟩, ⟨[1, 2], some .eof, by decide⟩] s ∧
      s.pc = .returned none ∧ s.sent = [(0, 2, [7, 8]), (1, 2, [9, 1]), (2, 1, [2])] := by
  obtain ⟨cs, hcs, _, _, _, h⟩ := split_lossless ⟨2, 2, 2⟩ (by decide) [7, 8, 9, 1, 2]
  cases hcs.symm.trans (show _ = Except.ok [[7, 8], [9, 1], [2]] from rfl)
  exact (h _ (by simp [Clean]) (by rfl)).1

end Chunker

end HashBox.FastCdc
