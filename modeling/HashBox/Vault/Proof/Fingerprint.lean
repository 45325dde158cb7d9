import HashBox.Lib.Rolling
import HashBox.Vault.Proof.Chunker

/-!
# The rolling fingerprint

`fingerprintOf` is the fingerprint of the bytes taken since the last reset. It is what `Split` holds
at every moment of a run (`run_fingerprint`) and what its byte loop tests (`splitLoop_test`).
Through the mask that `shouldCut` selects, only the last bytes of it are seen, as many as the mask
has bits: `fingerprint_window`.
-/

namespace HashBox.FastCdc

/-- The fingerprint after the byte loop has taken the bytes from a reset on. -/
def fingerprintOf (bytes : Bytes) : UInt64 :=
  bytes.foldl (fun fingerprint b => (fingerprint <<< 1) + gear b) 0

@[simp] theorem fingerprintOf_append (bytes : Bytes) (b : UInt8) :
    fingerprintOf (bytes ++ [b]) = (fingerprintOf bytes <<< 1) + gear b := by
  rw [fingerprintOf, List.foldl_append]
  rfl

theorem fingerprintOf_toBitVec (bytes : Bytes) :
    (fingerprintOf bytes).toBitVec = Rolling.roll (fun b => (gear b).toBitVec) 0#64 bytes := by
  suffices ∀ fp : UInt64,
      (bytes.foldl (fun (fp : UInt64) b => (fp <<< 1) + gear b) fp).toBitVec =
        Rolling.roll (fun b => (gear b).toBitVec) fp.toBitVec bytes from this 0
  induction bytes with
  | nil => exact fun _ => rfl
  | cons b bytes ih =>
    intro fp
    rw [List.foldl_cons, ih, Rolling.roll_cons, UInt64.toBitVec_add, UInt64.toBitVec_shiftLeft]
    rfl

/-! ## The masks -/

def bitsAvg (avgSize : Int) : Nat := max 4 (Nat.log2 avgSize.toNat)

/-- The mask that `shouldCut` looks at the fingerprint through. -/
def selectedMask (cfg : Config) (size : Int) : UInt64 :=
  if size < cfg.avgSize then (cutMasks cfg.avgSize).2 else (cutMasks cfg.avgSize).1

def maskBits (cfg : Config) (size : Int) : Nat :=
  if size < cfg.avgSize then bitsAvg cfg.avgSize + 1 else bitsAvg cfg.avgSize

theorem cutMasks_toBitVec (avgSize : Int) :
    (cutMasks avgSize).1.toBitVec = Rolling.mask 64 (bitsAvg avgSize) ∧
      (cutMasks avgSize).2.toBitVec = Rolling.mask 64 (bitsAvg avgSize + 1) :=
  ⟨rfl, rfl⟩

theorem selectedMask_toBitVec (cfg : Config) (size : Int) :
    (selectedMask cfg size).toBitVec = Rolling.mask 64 (maskBits cfg size) := by
  unfold selectedMask maskBits
  split
  · exact (cutMasks_toBitVec _).2
  · exact (cutMasks_toBitVec _).1

/-- The average size is a Go `int`, so it has a bit less than the word. -/
theorem bitsAvg_le {avgSize : Int} (hpos : 0 < avgSize) (hint : avgSize < 2 ^ 63) :
    bitsAvg avgSize ≤ 62 := by
  have hlog : Nat.log2 avgSize.toNat < 63 := (Nat.log2_lt (by omega)).2 (by omega)
  unfold bitsAvg
  omega

theorem maskBits_range (cfg : Config) (hv : cfg.validate = .ok ()) (hint : cfg.avgSize < 2 ^ 63)
    (size : Int) : 4 ≤ maskBits cfg size ∧ maskBits cfg size ≤ 63 := by
  obtain ⟨h0, h1, -⟩ := Config.validate_ok hv
  have hle := bitsAvg_le (Int.lt_of_lt_of_le h0 h1) hint
  have hge : 4 ≤ bitsAvg cfg.avgSize := Nat.le_max_left ..
  unfold maskBits
  split <;> omega

/-- Between the smallest and the largest size the masked fingerprint decides. -/
theorem shouldCut_eq {cfg : Config} {size : Int} (hmin : cfg.minSize ≤ size)
    (hmax : size < cfg.maxSize) (fp : UInt64) :
    shouldCut size fp cfg (cutMasks cfg.avgSize).1 (cutMasks cfg.avgSize).2 =
      (fp &&& selectedMask cfg size == 0) := by
  unfold shouldCut selectedMask
  rw [if_neg (by omega), if_neg (by omega)]
  split <;> rfl

/-! ## What the loop tests -/

/-- **Every test of the byte loop** is on the fingerprint of the bytes held, the new one included:
from a reset on this stays so. -/
theorem splitLoop_test (cfg : Config) (masks : UInt64 × UInt64) (chunkBuf : Bytes) (b : UInt8)
    (rest : Bytes) :
    splitLoop cfg masks chunkBuf (fingerprintOf chunkBuf) (b :: rest) =
      if shouldCut (chunkBuf ++ [b]).length (fingerprintOf (chunkBuf ++ [b])) cfg masks.1 masks.2
      then (chunkBuf ++ [b]) :: splitLoop cfg masks [] (fingerprintOf []) rest
      else splitLoop cfg masks (chunkBuf ++ [b]) (fingerprintOf (chunkBuf ++ [b])) rest := by
  rw [fingerprintOf_append]
  rfl

namespace Chunker

variable {cfg : Config} {s s' : State} {reader : List Read} {emitted : List Bytes} {buf : Bytes}

def Tracks (s : State) : Prop := s.fingerprint = fingerprintOf (Slices.read s.mem s.chunkBuf)

theorem Holds.tracks (h : Holds cfg s emitted buf) (hfp : s.fingerprint = fingerprintOf buf) :
    Tracks s := by
  rw [Tracks, h.read_chunkBuf, hfp]

theorem Inv.takeByte_tracks (h : Inv cfg reader s emitted buf) (ht : Tracks s) (i n : Nat)
    (err : Option ReadError) : Tracks (Chunker.takeByte cfg s i n err .live) := by
  rw [Tracks, h.read_chunkBuf] at ht
  unfold Chunker.takeByte
  dsimp only
  set b := (Slices.arrayAt s.mem s.readBuf.array).getD i 0
  have hold := h.toHolds.append h.room b ((s.fingerprint <<< 1) + gear b) (.byte (i + 1) n err)
  split
  · obtain ⟨s', he, hs', hfp, -⟩ := hold.emit (by simp)
    rw [he]
    exact hs'.tracks hfp
  · refine hold.tracks ?_
    rw [fingerprintOf_append, ← ht]

theorem Inv.flush_tracks (h : Inv cfg reader s emitted buf) (ht : Tracks s) :
    Tracks (orReturn s ((emit s .live).map fun s => { s with pc := .returned none })) := by
  by_cases hb : buf = []
  · rw [show emit s .live = .ok s from if_pos (by rw [h.chunkBuf, hb]; rfl)]
    exact ht
  · obtain ⟨s', he, hs', hfp, -⟩ := h.toHolds.emit hb
    rw [he]
    exact hs'.tracks hfp

/-- **One step keeps the fingerprint that of the bytes held.** -/
theorem step_tracks (h : Inv cfg reader s emitted buf) (ht : Tracks s)
    (hs : step cfg s .live = some s') : Tracks s' := by
  unfold step at hs
  cases hpc : s.pc with
  | read =>
    rw [hpc] at hs
    cases hrd : s.reader with
    | nil =>
      rw [hrd] at hs
      cases hs
      exact ht
    | cons r rest =>
      rw [hrd] at hs
      cases hs
      refine ((h.read hpc hrd).toHolds).tracks ?_
      rw [Tracks, h.read_chunkBuf] at ht
      exact ht
  | byte i n err =>
    rw [hpc] at hs
    cases hs
    split
    · exact h.takeByte_tracks ht i n err
    · rcases err with _ | _ | text <;> exact ht
  | poll =>
    rw [hpc] at hs
    cases hs
    exact ht
  | flush =>
    rw [hpc] at hs
    cases hs
    exact h.flush_tracks ht
  | returned r =>
    rw [hpc] at hs
    cases hs

/-- **At every moment of a run of `Split`** its fingerprint is that of the bytes it holds. -/
theorem run_fingerprint (hv : cfg.validate = .ok ()) (h : Run cfg reader s) :
    s.fingerprint = fingerprintOf (Slices.read s.mem s.chunkBuf) := by
  refine (Runs.Reach.inv (P := fun s => (∃ emitted buf, Inv cfg reader s emitted buf) ∧ Tracks s)
    h ?_ ?_).2
  · rintro _ rfl
    exact ⟨⟨[], [], start_inv hv reader⟩, (start_holds cfg reader).tracks rfl⟩
  · rintro s a s' ⟨⟨emitted, buf, hi⟩, ht⟩ rfl hs
    exact ⟨step_inv hv hi hs, step_tracks hi ht hs⟩

end Chunker

/-! ## The window -/

/-- **The window of the fingerprint.** Neither mask is shifted by 64 or more, and what `shouldCut`
sees of the fingerprint depends on the last bytes only, as many as the mask has bits: two sequences
of bytes with the same ones are cut or not alike, where the sizes select the same mask. So are, in
any two runs of `Split`, the bytes held with the one that is taken next. -/
theorem fingerprint_window (cfg : Config) (hv : cfg.validate = .ok ())
    (hint : cfg.avgSize < 2 ^ 63) :
    (4 ≤ bitsAvg cfg.avgSize ∧ bitsAvg cfg.avgSize + 1 ≤ 63 ∧
      (cutMasks cfg.avgSize).1.toNat = 2 ^ bitsAvg cfg.avgSize - 1 ∧
      (cutMasks cfg.avgSize).2.toNat = 2 ^ (bitsAvg cfg.avgSize + 1) - 1) ∧
    ∀ (xs ys : Bytes) (k : Nat), k = maskBits cfg xs.length → k ≤ xs.length → k ≤ ys.length →
      cfg.minSize ≤ xs.length → cfg.minSize ≤ ys.length →
      (xs.length : Int) < cfg.maxSize → (ys.length : Int) < cfg.maxSize →
      ((xs.length : Int) < cfg.avgSize ↔ (ys.length : Int) < cfg.avgSize) →
      xs.drop (xs.length - k) = ys.drop (ys.length - k) →
      (fingerprintOf xs &&& selectedMask cfg xs.length =
          fingerprintOf ys &&& selectedMask cfg ys.length ∧
        shouldCut xs.length (fingerprintOf xs) cfg (cutMasks cfg.avgSize).1
            (cutMasks cfg.avgSize).2 =
          shouldCut ys.length (fingerprintOf ys) cfg (cutMasks cfg.avgSize).1
            (cutMasks cfg.avgSize).2) ∧
      ∀ reader reader' s s' b b', Chunker.Run cfg reader s → Chunker.Run cfg reader' s' →
        xs = Slices.read s.mem s.chunkBuf ++ [b] → ys = Slices.read s'.mem s'.chunkBuf ++ [b'] →
        shouldCut xs.length ((s.fingerprint <<< 1) + gear b) cfg (cutMasks cfg.avgSize).1
            (cutMasks cfg.avgSize).2 =
          shouldCut ys.length ((s'.fingerprint <<< 1) + gear b') cfg (cutMasks cfg.avgSize).1
            (cutMasks cfg.avgSize).2 := by
  obtain ⟨h0, h1, -⟩ := Config.validate_ok hv
  have hle := bitsAvg_le (Int.lt_of_lt_of_le h0 h1) hint
  have hge : 4 ≤ bitsAvg cfg.avgSize := Nat.le_max_left ..
  obtain ⟨hsmall, hlarge⟩ := cutMasks_toBitVec cfg.avgSize
  refine ⟨⟨hge, by omega, ?_, ?_⟩, ?_⟩
  · rw [← UInt64.toNat_toBitVec, hsmall, Rolling.mask_toNat (by omega)]
  · rw [← UInt64.toNat_toBitVec, hlarge, Rolling.mask_toNat (by omega)]
  rintro xs ys k rfl hxs hys hxmin hymin hxmax hymax hside hlast
  have hsame : maskBits cfg ys.length = maskBits cfg xs.length := by
    unfold maskBits
    simp only [hside]
  have hmask : selectedMask cfg ys.length = selectedMask cfg xs.length := by
    unfold selectedMask
    simp only [hside]
  have hbits := (maskBits_range cfg hv hint xs.length).2
  set k := maskBits cfg xs.length
  have hseen : fingerprintOf xs &&& selectedMask cfg xs.length =
      fingerprintOf ys &&& selectedMask cfg xs.length := by
    rw [← UInt64.toBitVec_inj, UInt64.toBitVec_and, UInt64.toBitVec_and, selectedMask_toBitVec,
      fingerprintOf_toBitVec, fingerprintOf_toBitVec]
    exact Rolling.roll_mask _ (Nat.lt_succ_of_le hbits) _ _ hxs hys hlast
  have hcut : shouldCut xs.length (fingerprintOf xs) cfg (cutMasks cfg.avgSize).1
      (cutMasks cfg.avgSize).2 = shouldCut ys.length (fingerprintOf ys) cfg
        (cutMasks cfg.avgSize).1 (cutMasks cfg.avgSize).2 := by
    rw [shouldCut_eq hxmin hxmax, shouldCut_eq hymin hymax, hmask, hseen]
  refine ⟨⟨hmask ▸ hseen, hcut⟩, fun reader reader' s s' b b' hs hs' hx hy => ?_⟩
  rw [Chunker.run_fingerprint hv hs, Chunker.run_fingerprint hv hs', ← fingerprintOf_append,
    ← fingerprintOf_append, ← hx, ← hy]
  exact hcut

/-- A window of five bytes, in sequences of five and seven. -/
theorem fingerprint_window_sample :
    shouldCut 7 (fingerprintOf [9, 8, 1, 2, 3, 4, 5]) ⟨2, 16, 64⟩ (cutMasks 16).1 (cutMasks 16).2 =
      shouldCut 5 (fingerprintOf [1, 2, 3, 4, 5]) ⟨2, 16, 64⟩ (cutMasks 16).1 (cutMasks 16).2 :=
  ((fingerprint_window ⟨2, 16, 64⟩ (by decide) (by decide)).2 [9, 8, 1, 2, 3, 4, 5] [1, 2, 3, 4, 5]
    5 (by decide) (by decide) (by decide) (by decide) (by decide) (by decide) (by decide)
    (by decide) (by decide)).1.2

end HashBox.FastCdc
