import HashBox.Vault.ChunkFiles
import HashBox.Vault.Proof.SingleStore

/-!
# The chunk files, in every state and after every crash

A chunk file is published by link (`Lib/Files.lean`): its public names are those that end in `.bin`,
and a file is good under the path of its own hash. `FileThread.step_spec` says once what a step of
a thread does to the tree and to the lock; that no `.bin` name ever refers to anything else, and
that an upload which holds the lock keeps the file it found or wrote, follow by `FileStore.Inv`.
-/

namespace HashBox.Vault

variable {blake3 : Bytes → Hash} {root root' : ChunkRoot} {db db' : Database} {s s' : Mem}
  {t : SessionID}

/-! ## Names -/

/-- The names the collector may remove, and no temporary file has. -/
def isChunkName (p : Path) : Prop := hasBinExt (fileName p) = true

/-- The file is where `chunkPaths` puts its content. -/
def wellPlaced (blake3 : Bytes → Hash) (p : Path) (content : Bytes) : Prop :=
  p = chunkPath (blake3 content)

theorem fileName_chunkPath (h : Hash) : fileName (chunkPath h) = hex h ++ ".bin" := rfl

theorem isChunkName_chunkPath (h : Hash) : isChunkName (chunkPath h) := by
  rw [isChunkName, fileName_chunkPath, hasBinExt, List.isSuffixOf_iff_suffix, String.toList_append]
  exact List.suffix_append _ _

theorem isChunkName_of_walked {p : Path} {x : String} (h : walkedHash (fileName p) = some x) :
    isChunkName p := by
  unfold walkedHash at h
  split at h
  · next hb => exact hb
  · cases h

theorem not_hasBinExt_tempName (n : Nat) : hasBinExt (tempName n) = false := by
  have hne : ".bin".toList ≠ ".tmp".toList := by decide
  have hlen : ".bin".toList.length = ".tmp".toList.length := rfl
  rw [Bool.eq_false_iff, hasBinExt, ne_eq, List.isSuffixOf_iff_suffix, tempName,
    String.toList_append, String.toList_append]
  -- the kernel is not to compare the two texts again
  generalize ".bin".toList = bin at *
  generalize ".tmp".toList = tmp at *
  rintro ⟨front, h⟩
  rw [← List.append_assoc] at h
  exact hne (List.append_inj' h hlen).2

theorem not_isChunkName_temp (dir : Path) (n : Nat) : ¬ isChunkName (dir ++ [tempName n]) := by
  rw [isChunkName, fileName, List.getLastD_eq_getLast?, List.getLast?_concat, Option.getD_some,
    not_hasBinExt_tempName]
  exact Bool.false_ne_true

/-! ## What a writer knows -/

/-- The file of the chunk is there. -/
def ChunkRoot.has (root : ChunkRoot) (p : Path) : Prop := (root.lookup p).isSome

/-- The temporary file is still under its name. -/
structure TempFile.Named (root : ChunkRoot) (tmp : TempFile) : Prop where
  hidden : ¬ isChunkName tmp.path
  lookup : root.lookup tmp.path = some tmp.inode

/-- Nobody else can see the temporary file; `synced` says whether it has been synced. -/
structure TempFile.Holds (root : ChunkRoot) (tmp : TempFile) (content : Bytes) (synced : Prop) :
    Prop where
  hidden : ¬ isChunkName tmp.path
  owned : root.Owned tmp.path tmp.inode
  node : ∃ node, root.inode tmp.inode = some node ∧ node.content = content ∧
    (synced → node.synced = true)

theorem TempFile.Holds.named {tmp : TempFile} {content : Bytes} {synced : Prop}
    (h : tmp.Holds root content synced) : tmp.Named root :=
  ⟨h.hidden, h.owned.lookup⟩

def WriterPc.Ok (root : ChunkRoot) (targetPath : Path) (content : Bytes) : WriterPc → Prop
  | .stat | .mkdirAll | .createTemp => True
  | .write tmp todo => ∃ written, written ++ todo = content ∧ tmp.Holds root written False
  | .sync tmp => tmp.Holds root content False
  | .chmod tmp | .close tmp | .link tmp => tmp.Holds root content True
  | .abandon tmp _ | .statLinked tmp _ => tmp.Named root
  | .remove tmp result => tmp.Named root ∧ (result = .ok () → root.has targetPath)
  | .done result => result = .ok () → root.has targetPath

/-- The temporary file of a call, as long as it may use it. -/
def WriterPc.temp : WriterPc → Option TempFile
  | .write tmp _ | .sync tmp | .chmod tmp | .close tmp | .abandon tmp _ | .link tmp
  | .statLinked tmp _ | .remove tmp _ => some tmp
  | .stat | .mkdirAll | .createTemp | .done _ => none

def WriterPc.own (w : WriterPc) : Option (Path × Nat) := w.temp.map fun tmp => (tmp.path, tmp.inode)

/-- A system call for the tree below the chunk root. -/
abbrev RootCall (blake3 : Bytes → Hash) (sweeping : Prop) (own : Option (Path × Nat))
    (root root' : ChunkRoot) : Prop :=
  Files.Call isChunkName (wellPlaced blake3) sweeping own root root'

theorem TempFile.Holds.link {sweeping : Prop} {c : Bytes} {tmp : TempFile}
    (h : tmp.Holds root c True) (hl : root.link tmp.path (chunkPath (blake3 c)) = .ok root') :
    RootCall blake3 sweeping (some (tmp.path, tmp.inode)) root root' ∧ tmp.Named root' ∧
      ChunkRoot.has root' (chunkPath (blake3 c)) := by
  obtain ⟨node, hn, hcon, hs⟩ := h.node
  obtain ⟨i, hi, hnone, -, -, hlook⟩ := Files.link_ok hl
  have good : wellPlaced blake3 (chunkPath (blake3 c)) node.content := by rw [hcon]; rfl
  refine ⟨.link rfl h.owned.lookup hn (hs trivial) good hl, ⟨h.hidden, ?_⟩, ?_⟩
  · rw [hlook, if_neg, h.owned.lookup]
    intro he
    exact h.hidden (he ▸ isChunkName_chunkPath _)
  · rw [ChunkRoot.has, hlook, if_pos rfl]
    rfl

theorem TempFile.Named.remove {tmp : TempFile} (h : tmp.Named root) {p : Path}
    (hp : isChunkName p) (hl : root.has p) : ChunkRoot.has (root.remove tmp.path) p := by
  rw [ChunkRoot.has, Files.lookup_remove, if_neg]
  · exact hl
  · intro he
    exact h.hidden (he ▸ hp)

/-- **What one system call of `writeChunkIfMissing` does.** -/
theorem writerStep_spec {sweeping : Prop} {c : Bytes} {w w' : WriterPc} {k : FileChoice}
    (hw : w.Ok root (chunkPath (blake3 c)) c)
    (h : writerStep root (chunkPath (blake3 c)) c w k = some (root', w')) :
    RootCall blake3 sweeping w.own root root' ∧ w'.Ok root' (chunkPath (blake3 c)) c ∧
      ∀ tmp, w'.temp = some tmp → w.temp = some tmp ∨ tmp.inode = root.inodes.length := by
  unfold writerStep at h
  split at h
  case h_1 =>
    cases h
    refine ⟨.stay, ?_, ?_⟩
    · split
      · next hl => exact fun _ => hl
      · exact trivial
    · split <;> exact nofun
  case h_2 => cases h; exact ⟨.stay, nofun, nofun⟩
  case h_3 => cases h; exact ⟨.stay, trivial, nofun⟩
  case h_4 => cases h; exact ⟨.stay, nofun, nofun⟩
  case h_5 n now =>
    obtain ⟨⟨root1, inode⟩, ho, he⟩ := Option.map_eq_some_iff.1 h
    cases he
    have hidden := not_isChunkName_temp (chunkPath (blake3 c)).dropLast n
    refine ⟨.create hidden ho, ⟨[], rfl, hidden, .openExcl ho, _, Files.inode_openExcl ho, rfl,
      nofun⟩, ?_⟩
    intro tmp htmp
    cases htmp
    exact .inr (Files.openExcl_spec ho).2.1
  case h_6 => cases h; exact ⟨.stay, nofun, nofun⟩
  case h_7 tmp todo n now =>
    cases h
    obtain ⟨written, hc, hidden, owned, node, hn, hcon, -⟩ := hw
    refine ⟨.append _ _ rfl hidden owned, ⟨written ++ todo.take n, ?_, hidden, owned.modify, _,
      Files.inode_modify_self hn, ?_, nofun⟩, fun _ => .inl⟩
    · rw [List.append_assoc, List.take_append_drop, hc]
    · rw [hcon]
  case h_8 =>
    cases h
    obtain ⟨written, hc, hold⟩ := hw
    rw [List.append_nil] at hc
    exact ⟨.stay, hc ▸ hold, fun _ => .inl⟩
  case h_9 => cases h; obtain ⟨written, -, hold⟩ := hw; exact ⟨.stay, hold.named, fun _ => .inl⟩
  case h_10 tmp now =>
    cases h
    obtain ⟨hidden, owned, node, hn, hcon, -⟩ := hw
    exact ⟨.fsync rfl, ⟨hidden, owned.modify, _, Files.inode_modify_self hn, hcon, fun _ => rfl⟩,
      fun _ => .inl⟩
  case h_11 => cases h; exact ⟨.stay, hw.named, fun _ => .inl⟩
  case h_12 => cases h; exact ⟨.stay, hw, fun _ => .inl⟩
  case h_13 => cases h; exact ⟨.stay, hw.named, fun _ => .inl⟩
  case h_14 => cases h; exact ⟨.stay, hw, fun _ => .inl⟩
  case h_15 => cases h; exact ⟨.stay, ⟨hw.named, nofun⟩, fun _ => .inl⟩
  case h_16 => cases h; exact ⟨.stay, ⟨hw, nofun⟩, fun _ => .inl⟩
  case h_17 => cases h; exact ⟨.stay, ⟨hw, nofun⟩, fun _ => .inl⟩
  case h_18 tmp now =>
    split at h
    · next root1 hl =>
      cases h
      obtain ⟨hcall, hnamed, has⟩ := TempFile.Holds.link hw hl
      exact ⟨hcall, ⟨hnamed, fun _ => has⟩, fun _ => .inl⟩
    · next hl => cases h; exact ⟨.stay, ⟨hw.named, fun _ => Files.link_exist hl⟩, fun _ => .inl⟩
    · cases h; exact ⟨.stay, hw.named, fun _ => .inl⟩
  case h_19 => cases h; exact ⟨.stay, hw.named, fun _ => .inl⟩
  case h_20 =>
    cases h
    refine ⟨.stay, ⟨hw, ?_⟩, fun _ => .inl⟩
    split
    · next hl => exact fun _ => hl
    · exact nofun
  case h_21 => cases h; exact ⟨.stay, ⟨hw, nofun⟩, fun _ => .inl⟩
  case h_22 tmp result now =>
    cases h
    exact ⟨.discard rfl hw.1.lookup hw.1.hidden,
      fun hr => hw.1.remove (isChunkName_chunkPath _) (hw.2 hr), nofun⟩
  case h_23 => cases h; exact ⟨.stay, hw.2, nofun⟩
  case h_24 => cases h

/-! ## What other threads leave -/

section
variable {sweeping : Prop} {own : Option (Path × Nat)}
  (hc : RootCall blake3 sweeping own root root')
include hc

theorem TempFile.Named.frame {tmp : TempFile} (h : tmp.Named root)
    (hne : ∀ e, own = some e → e.2 ≠ tmp.inode) : tmp.Named root' :=
  ⟨h.hidden, (hc.private h.hidden h.lookup hne).1⟩

theorem TempFile.Holds.frame {tmp : TempFile} {content : Bytes} {synced : Prop}
    (h : tmp.Holds root content synced) (hne : ∀ e, own = some e → e.2 ≠ tmp.inode) :
    tmp.Holds root' content synced := by
  obtain ⟨-, hnode, howned⟩ := hc.private h.hidden h.owned.lookup hne
  obtain ⟨node, hn, hcon⟩ := h.node
  exact ⟨h.hidden, howned h.owned, node, by rw [hnode, hn], hcon⟩

theorem ChunkRoot.has_frame (hs : ¬ sweeping) {p : Path} (hp : isChunkName p) (h : root.has p) :
    root'.has p := by
  obtain ⟨i, hi⟩ := Option.isSome_iff_exists.1 h
  rcases hc.public hp hi with hl | ⟨hsw, -⟩
  · rw [ChunkRoot.has, hl]
    rfl
  · exact absurd hsw hs

theorem WriterPc.Ok.frame (hs : ¬ sweeping) {p : Path} {content : Bytes} {w : WriterPc}
    (hp : isChunkName p) (h : w.Ok root p content)
    (hne : ∀ e tmp, own = some e → w.temp = some tmp → e.2 ≠ tmp.inode) :
    w.Ok root' p content := by
  cases w with
  | stat | mkdirAll | createTemp => exact trivial
  | write tmp todo =>
    obtain ⟨written, hw, hold⟩ := h
    exact ⟨written, hw, hold.frame hc fun e he => hne e tmp he rfl⟩
  | sync tmp | chmod tmp | close tmp | link tmp =>
    exact TempFile.Holds.frame hc h fun e he => hne e tmp he rfl
  | abandon tmp err | statLinked tmp err =>
    exact TempFile.Named.frame hc h fun e he => hne e tmp he rfl
  | remove tmp result =>
    exact ⟨h.1.frame hc fun e he => hne e tmp he rfl,
      fun hr => ChunkRoot.has_frame hc hs hp (h.2 hr)⟩
  | done result => exact fun hr => ChunkRoot.has_frame hc hs hp (h hr)

end

/-! ## Threads -/

/-- `touchChunk` has seen to the chunk's file, and still holds the lock. -/
def Upload.wrote (u : Upload) (c : Bytes) : Prop :=
  u.pc = .putRecord c ∨ ∃ created, u.pc = .mark c created

theorem Upload.reading_of_wrote {u : Upload} {c : Bytes} (h : u.wrote c) : u.reading := by
  unfold Upload.reading
  rcases h with h | ⟨created, h⟩ <;> rw [h] <;> exact trivial

def FileThread.Ok (blake3 : Bytes → Hash) (root : ChunkRoot) (s : Mem) (t : SessionID) :
    FileThread → Prop
  | .upload u => (u.reading → t ∈ s.lifecycleMu.readers) ∧
      ∀ c, u.wrote c → root.has (chunkPath (blake3 c))
  | .writing _ c _ w => t ∈ s.lifecycleMu.readers ∧ w.Ok root (chunkPath (blake3 c)) c
  | .lifecycle _ => True
  | .sweep w _ orphans => (w.writing → s.lifecycleMu.writer = some t) ∧ ∀ p ∈ orphans, isChunkName p

def FileThread.temp : FileThread → Option TempFile
  | .writing _ _ _ w => w.temp
  | _ => none

def FileThread.own (th : FileThread) : Option (Path × Nat) :=
  th.temp.map fun tmp => (tmp.path, tmp.inode)

/-- The thread is a sweep under the write lock. -/
def FileThread.sweeping : FileThread → Prop
  | .sweep w _ _ => w.writing
  | _ => False

/-- **Other threads' steps leave a thread's assertion.** -/
theorem FileThread.Ok.frame {th : FileThread} {u : SessionID} {sweeping : Prop}
    {own : Option (Path × Nat)} (h : th.Ok blake3 root s u) (hne : u ≠ t)
    (hwf : s.lifecycleMu.WF) (hl : RwLock.Step t s.lifecycleMu s'.lifecycleMu)
    (hc : RootCall blake3 sweeping own root root')
    (hsweeping : sweeping → s.lifecycleMu.writer = some t)
    (htemp : ∀ e tmp, own = some e → th.temp = some tmp → e.2 ≠ tmp.inode) :
    th.Ok blake3 root' s' u := by
  have calm : u ∈ s.lifecycleMu.readers → ¬ sweeping := by
    intro hr hs
    have hw := hsweeping hs
    rw [hwf.not_writing hr] at hw
    cases hw
  cases th with
  | upload x =>
    refine ⟨fun hr => hl.readers hne (h.1 hr), fun c hw => ?_⟩
    exact ChunkRoot.has_frame hc (calm (h.1 (Upload.reading_of_wrote hw)))
      (isChunkName_chunkPath _) (h.2 c hw)
  | writing x c found w =>
    exact ⟨hl.readers hne h.1, h.2.frame hc (calm h.1) (isChunkName_chunkPath _) htemp⟩
  | lifecycle l => exact trivial
  | sweep w visited orphans => exact ⟨fun hw => hl.writer hne (h.1 hw), h.2⟩

/-- Of the steps that touch no file, only `putRecord` leads where the chunk's file is relied on. -/
theorem uploadStep_wrote {d d' : Disk} {k : Choice} {u u' : Upload} {c : Bytes}
    (h : uploadStep blake3 d s t u k = some (d', s', u')) (hw : u'.wrote c) :
    u.pc = .putRecord c ∨ (u.pc = .stat c ∧ ∃ now, k = .go now) ∨
      ∃ found, u.pc = .persist c found := by
  -- at another point than these two the upload has written nothing
  have no : ∀ {pc : UploadPc}, u'.pc = pc → (∀ b, pc ≠ .putRecord b) →
      (∀ b created, pc ≠ .mark b created) → False := by
    intro pc hpc h1 h2
    rcases hw with hw | ⟨created, hw⟩
    · exact h1 c (hpc.symm.trans hw)
    · exact h2 c created (hpc.symm.trans hw)
  cases uploadStep_move h with
  | fail k session pc s' hid hpc =>
    rcases hpc with ⟨e, rfl⟩ | ⟨r, rfl⟩ <;> exact (no rfl nofun nofun).elim
  | inPlace now b hpc =>
    rcases hw with hw | ⟨created, hw⟩ <;> cases hw
    exact .inr (.inl ⟨hpc, now, rfl⟩)
  | persist now b found hpc =>
    refine .inr (.inr ⟨found, ?_⟩)
    cases found <;> rcases hw with hw | ⟨created, hw⟩ <;> cases hw <;> exact hpc
  | putRecord now b hpc =>
    rcases hw with hw | ⟨created, hw⟩ <;> cases hw
    exact .inl hpc
  | register | read | build | touchLock | found | missing | lost | mark | commitLock | commit
  | finish | unregisterLock | unregister => exact (no rfl nofun nofun).elim

theorem FileThread.ofUpload_ok {u : Upload} (hr : u.reading → t ∈ s.lifecycleMu.readers)
    (hw : ∀ c, u.wrote c → root.has (chunkPath (blake3 c))) :
    (FileThread.ofUpload u).Ok blake3 root s t ∧ (FileThread.ofUpload u).temp = none := by
  unfold FileThread.ofUpload
  split
  · next c found hpc =>
    refine ⟨⟨hr ?_, trivial⟩, rfl⟩
    rw [Upload.reading, hpc]
    exact trivial
  · exact ⟨⟨hr, hw⟩, rfl⟩

/-- What a step of thread `t` does, and what the thread knows then. -/
structure FileThread.Does (blake3 : Bytes → Hash) (root root' : ChunkRoot) (s s' : Mem)
    (t : SessionID) (th th' : FileThread) : Prop where
  lock : RwLock.Step t s.lifecycleMu s'.lifecycleMu
  call : RootCall blake3 th.sweeping th.own root root'
  ok : th'.Ok blake3 root' s' t
  temp : ∀ tmp, th'.temp = some tmp → th.temp = some tmp ∨ tmp.inode = root.inodes.length

theorem fileUploadStep_spec {u : Upload} {k : FileChoice} {th' : FileThread}
    (hok : (FileThread.upload u).Ok blake3 root s t)
    (h : fileUploadStep blake3 root db s t u k = some (root', db', s', th')) :
    FileThread.Does blake3 root root' s s' t (.upload u) th' := by
  unfold fileUploadStep at h
  split at h
  · next k =>
    have reads : ∀ {c}, u.pc = .stat c → t ∈ s.lifecycleMu.readers := by
      intro c hpc
      apply hok.1
      rw [Upload.reading, hpc]
      exact trivial
    split at h
    · next c now hpc =>
      split at h
      · next hl =>
        cases h
        refine ⟨.none, .stay, ⟨fun _ => reads hpc, fun b hb => ?_⟩, fun _ h => by cases h⟩
        rcases hb with hb | ⟨created, hb⟩ <;> cases hb
        exact hl
      · cases h
        exact ⟨.none, .stay, ⟨reads hpc, trivial⟩, fun _ h => by cases h⟩
    · next c err hpc =>
      cases h
      exact ⟨.none, .stay, ⟨reads hpc, trivial⟩, fun _ h => by cases h⟩
    · cases h
    · next hpersist hgo hfail =>
      obtain ⟨⟨d1, s1, u1⟩, hu, he⟩ := Option.map_eq_some_iff.1 h
      cases he
      obtain ⟨hl, hr⟩ := uploadStep_lock hu hok.1
      have hwrote : ∀ c, u1.wrote c → root.has (chunkPath (blake3 c)) := by
        intro c hw
        rcases uploadStep_wrote hu hw with hpc | ⟨hpc, now, hk⟩ | ⟨found, hpc⟩
        · exact hok.2 c (.inl hpc)
        · exact (hgo c now hpc hk).elim
        · exact (hpersist c found hpc).elim
      obtain ⟨hok', htemp⟩ := FileThread.ofUpload_ok hr hwrote
      exact ⟨hl, .stay, hok', fun tmp h => by rw [htemp] at h; cases h⟩
  · cases h

theorem fileWriterStep_spec {u : Upload} {c : Bytes} {found : Bool} {w : WriterPc}
    {k : FileChoice} {th' : FileThread} (hok : (FileThread.writing u c found w).Ok blake3 root s t)
    (h : fileWriterStep blake3 root db s t u c found w k = some (root', db', s', th')) :
    FileThread.Does blake3 root root' s s' t (.writing u c found w) th' := by
  obtain ⟨⟨root1, w1⟩, hw, he⟩ := Option.map_eq_some_iff.1 h
  obtain ⟨hcall, hok', htemp⟩ :
      RootCall blake3 False w.own root root1 ∧ _ ∧ _ :=
    writerStep_spec hok.2 hw
  dsimp only at he
  split at he
  · next result =>
    cases result with
    | ok =>
      cases he
      refine ⟨.none, hcall, ⟨fun _ => hok.1, fun b hb => ?_⟩, fun _ h => by cases h⟩
      have hbc : b = c := by
        cases found <;> rcases hb with hb | ⟨created, hb⟩ <;> cases hb <;> rfl
      exact hbc ▸ hok' rfl
    | error err =>
      cases he
      refine ⟨.runlock, hcall, ⟨fun hr => hr.elim, fun b hb => ?_⟩, fun _ h => by cases h⟩
      rcases hb with hb | ⟨created, hb⟩ <;> cases hb
  · cases he
    exact ⟨.none, hcall, ⟨hok.1, hok'⟩, htemp⟩

/-- A sweep removes chunk files only, and under the write lock. -/
theorem Sweep.removesPath_spec {w : Sweep} {orphans : List Path} {p : Path}
    (hok : ∀ q ∈ orphans, isChunkName q) (h : w.removesPath orphans = some p) :
    w.writing ∧ isChunkName p := by
  unfold Sweep.removesPath at h
  unfold Sweep.writing
  split at h
  · next hpc =>
    cases h
    rw [hpc]
    exact ⟨trivial, isChunkName_chunkPath _⟩
  · next hpc =>
    rw [hpc]
    exact ⟨trivial, hok p (List.mem_of_mem_head? h)⟩
  · cases h

theorem fileSweepStep_spec {w : Sweep} {visited orphans : List Path} {k : FileChoice}
    {th' : FileThread} (hok : (FileThread.sweep w visited orphans).Ok blake3 root s t)
    (h : fileSweepStep root db s t w visited orphans k = some (root', db', s', th')) :
    FileThread.Does blake3 root root' s s' t (.sweep w visited orphans) th' := by
  unfold fileSweepStep at h
  split at h
  · next p c =>
    split at h
    · next active scan x f hpc hf =>
      split at h
      · cases h
      · next hv =>
        cases h
        simp only [Bool.or_eq_true, decide_eq_true_eq, not_or, not_not] at hv
        refine ⟨.none, .stay, ⟨fun _ => hok.1 ?_, fun q hq => ?_⟩, fun _ h => by cases h⟩
        · rw [Sweep.writing, hpc]
          exact trivial
        · split at hq
          · rcases List.mem_append.1 hq with hq | hq
            · exact hok.2 q hq
            · exact List.mem_singleton.1 hq ▸ isChunkName_of_walked hv.2
          · exact hok.2 q hq
    · cases h
  · next k =>
    obtain ⟨⟨d1, s1, w1⟩, hw, he⟩ := Option.map_eq_some_iff.1 h
    cases he
    obtain ⟨hl, -, hwriting⟩ := sweepStep_lock hw hok.1
    refine ⟨hl, ?_, ⟨hwriting, fun q hq => ?_⟩, fun _ h => by cases h⟩
    · unfold Sweep.rootAfter
      split
      · next p hp =>
        obtain ⟨hsw, hname⟩ := Sweep.removesPath_spec hok.2 hp
        exact .sweep hsw hname
      · exact .stay
    · unfold Sweep.orphansLeft at hq
      split at hq
      · exact hok.2 q (List.mem_of_mem_tail hq)
      · exact hok.2 q hq
  · cases h

/-- **What one step of a thread does.** -/
theorem FileThread.step_spec {k : FileChoice} {th th' : FileThread}
    (hok : th.Ok blake3 root s t)
    (h : th.step blake3 root db s t k = some (root', db', s', th')) :
    FileThread.Does blake3 root root' s s' t th th' := by
  cases th with
  | upload u => exact fileUploadStep_spec hok h
  | writing u c found w => exact fileWriterStep_spec hok h
  | lifecycle l =>
    unfold FileThread.step at h
    cases k with
    | call k =>
      obtain ⟨⟨d1, s1, l1⟩, hl, he⟩ := Option.map_eq_some_iff.1 h
      cases he
      exact ⟨(lifecycleStep_lock hl).1, .stay, trivial, nofun⟩
    | temp | wrote | visit => cases h
  | sweep w visited orphans => exact fileSweepStep_spec hok h

theorem FileThread.Ok.named {th : FileThread} {tmp : TempFile} (h : th.Ok blake3 root s t)
    (htmp : th.temp = some tmp) : tmp.Named root := by
  cases th with
  | writing u c found w =>
    have hw := h.2
    cases w with
    | write => cases htmp; obtain ⟨written, -, hold⟩ := hw; exact hold.named
    | sync | chmod | close | link => cases htmp; exact hw.named
    | abandon | statLinked => cases htmp; exact hw
    | remove => cases htmp; exact hw.1
    | stat | mkdirAll | createTemp | done => cases htmp
  | upload | lifecycle | sweep => cases htmp

theorem FileThread.Ok.writer {th : FileThread} (h : th.Ok blake3 root s t) (hs : th.sweeping) :
    s.lifecycleMu.writer = some t := by
  cases th with
  | sweep w visited orphans => exact h.1 hs
  | upload | writing | lifecycle => exact hs.elim

/-! ## The system -/

structure FileStore.Inv (blake3 : Bytes → Hash) (y : FileStore) : Prop where
  lock : y.mem.lifecycleMu.WF
  published : Files.Published isChunkName (wellPlaced blake3) y.root
  threads : Threads.All (FileThread.Ok blake3 y.root y.mem) y.threads
  /-- No two calls share a temporary file. -/
  temps : ∀ t u th x a b, t ≠ u → y.threads t = some th → y.threads u = some x →
    th.temp = some a → x.temp = some b → a.inode ≠ b.inode

theorem FileStore.Inv.idle (blake3 : Bytes → Hash) (db : Database) : (idle db).Inv blake3 :=
  ⟨.free, .empty, .empty, fun _ _ _ _ _ _ _ h => by cases h⟩

theorem FileStore.Inv.crash {y : FileStore} (hy : y.Inv blake3) (db : Database)
    (kept : List (Path × Nat)) (torn : Nat → Bytes) :
    (⟨y.root.crash kept torn, db, .idle, fun _ => none⟩ : FileStore).Inv blake3 :=
  ⟨.free, hy.published.crash kept torn, .empty, fun _ _ _ _ _ _ _ h => by cases h⟩

theorem FileStore.Inv.spawn {y y' : FileStore} (hy : y.Inv blake3) {th : FileThread}
    (hth : th.Ok blake3 y.root y.mem t) (htemp : th.temp = none)
    (h : y.spawn t db th = some y') : y'.Inv blake3 ∧ y'.root = y.root := by
  unfold FileStore.spawn at h
  split at h
  · cases h
  · cases h
    refine ⟨⟨hy.lock, hy.published, hy.threads.update (fun _ _ _ _ => id) hth, ?_⟩, rfl⟩
    intro v u x x' a b hne hv hu ha hb
    simp only [Function.update_apply] at hv hu
    split at hv
    · cases hv; rw [htemp] at ha; cases ha
    · split at hu
      · cases hu; rw [htemp] at hb; cases hb
      · exact hy.temps v u x x' a b hne hv hu ha hb

theorem FileStore.Inv.run {y : FileStore} (hy : y.Inv blake3) {th th' : FileThread}
    (hth : y.threads t = some th)
    (h : FileThread.Does blake3 y.root root' y.mem s' t th th') :
    (⟨root', db', s', Function.update y.threads t (some th')⟩ : FileStore).Inv blake3 := by
  have hok := hy.threads t th hth
  have apart : ∀ u x, u ≠ t → y.threads u = some x →
      ∀ e tmp, th.own = some e → x.temp = some tmp → e.2 ≠ tmp.inode := by
    intro u x hne hx e tmp he htmp
    obtain ⟨a, ha, rfl⟩ := Option.map_eq_some_iff.1 he
    exact hy.temps t u th x a tmp hne.symm hth hx ha htmp
  -- a temporary file of this step is the old one, or new
  have own : ∀ u x a b, u ≠ t → y.threads u = some x → th'.temp = some a → x.temp = some b →
      a.inode ≠ b.inode := by
    intro u x a b hne hx ha hb
    rcases h.temp a ha with ha | ha
    · exact hy.temps t u th x a b hne.symm hth hx ha hb
    · have hlt : b.inode < y.root.inodes.length :=
        Files.Had.lt (.inl ((hy.threads u x hx).named hb).lookup)
      omega
  refine ⟨h.lock.wf hy.lock, h.call.published hy.published, ?_, ?_⟩
  · refine hy.threads.update (fun u x hne hx hxok => ?_) h.ok
    exact hxok.frame hne hy.lock h.lock h.call hok.writer (apart u x hne hx)
  · intro v u x x' a b hne hv hu ha hb
    simp only [Function.update_apply] at hv hu
    split at hv
    · next hvt =>
      cases hv
      split at hu
      · next hut => exact absurd (hvt.trans hut.symm) hne
      · next hut => exact own u x' a b hut hu ha hb
    · next hvt =>
      split at hu
      · cases hu
        exact (own v x b a hvt hv hb ha).symm
      · exact hy.temps v u x x' a b hne hv hu ha hb

theorem FileStore.Inv.step {cfg : FastCdc.Config} {y y' : FileStore} {a : FileStoreAction}
    (hy : y.Inv blake3) (h : y.step cfg blake3 a = some y') :
    y'.Inv blake3 ∧ (y'.root = y.root ∨
      (∃ db kept torn, a = .crash db kept torn ∧ y'.root = y.root.crash kept torn) ∨
      ∃ t k th, a = .run t k ∧ y.threads t = some th ∧
        RootCall blake3 th.sweeping th.own y.root y'.root) := by
  cases a with
  | processUpload t fileName bytes now =>
    have hok : (FileThread.upload (.start cfg (newUploadSession t fileName now) bytes)).Ok blake3
        y.root y.mem t := by
      refine ⟨fun hr => hr.elim, fun c hc => ?_⟩
      rcases hc with hc | ⟨created, hc⟩ <;> cases hc
    obtain ⟨hinv, hroot⟩ := hy.spawn hok rfl h
    exact ⟨hinv, .inl hroot⟩
  | updateManifestLifecycle t manifestID retired =>
    have hok : (FileThread.lifecycle ⟨manifestID, retired, .lock⟩).Ok blake3 y.root y.mem t :=
      trivial
    obtain ⟨hinv, hroot⟩ := hy.spawn hok rfl h
    exact ⟨hinv, .inl hroot⟩
  | collectGarbage t olderThan =>
    have hok : (FileThread.sweep (.start olderThan) [] []).Ok blake3 y.root y.mem t :=
      ⟨fun hw => hw.elim, nofun⟩
    obtain ⟨hinv, hroot⟩ := hy.spawn hok rfl h
    exact ⟨hinv, .inl hroot⟩
  | run t k =>
    unfold FileStore.step at h
    dsimp only at h
    split at h
    · cases h
    · next th hth =>
      obtain ⟨⟨root1, db1, s1, th1⟩, hs, he⟩ := Option.map_eq_some_iff.1 h
      cases he
      have hdoes := FileThread.step_spec (hy.threads t th hth) hs
      exact ⟨hy.run hth hdoes, .inr (.inr ⟨t, k, th, rfl, hth, hdoes.call⟩)⟩
  | crash db kept torn =>
    cases h
    exact ⟨hy.crash db kept torn, .inr (.inl ⟨db, kept, torn, rfl, rfl⟩)⟩

theorem FileStore.Reachable.inv {cfg : FastCdc.Config} {y : FileStore}
    (h : FileStore.Reachable cfg blake3 y) : y.Inv blake3 := by
  refine Runs.Reach.inv h ?_ fun y a y' hy _ hs => (hy.step hs).1
  rintro y ⟨db, rfl⟩
  exact .idle blake3 db

def FileStoreAction.isCrash : FileStoreAction → Bool
  | .crash .. => true
  | _ => false

/-- The thread is a sweep. -/
def FileThread.isSweep : FileThread → Bool
  | .sweep .. => true
  | _ => false

theorem isChunkName_of_eq {p : Path} {h : Hash} (hp : fileName p = hex h ++ ".bin") :
    isChunkName p := by
  rw [isChunkName, hp]
  exact isChunkName_chunkPath h

/-- A file that bears the name of a chunk is at the chunk's path, and has the chunk's content. -/
theorem FileStore.Inv.file {y : FileStore} (hy : y.Inv blake3) {p : Path} {i : Nat} {h : Hash}
    (hl : y.root.lookup p = some i) (hp : fileName p = hex h ++ ".bin") :
    p = chunkPath h ∧ ∃ f, y.root.inode i = some f ∧ blake3 f.content = h := by
  obtain ⟨f, hf, -, hgood⟩ := hy.published p i (isChunkName_of_eq hp) (.inl hl)
  have hh : blake3 f.content = h := by
    rw [hgood, fileName_chunkPath] at hp
    exact hex_injective (append_right_injective ".bin" hp)
  exact ⟨by rw [← hh]; exact hgood, f, hf, hh⟩

/-- **Content-address integrity.** In every state, after every crash: a file that is named for a
hash is where `chunkPaths` puts that hash, and its content has it. A step never writes to such a
file, and the name goes on referring to it until a sweep removes it; after a crash it may refer to
an earlier file whose removal was lost. And every upload whose `touchChunk` has seen to a chunk
finds exactly one file of that name, whoever wrote it. -/
theorem chunk_files_complete {cfg : FastCdc.Config} {y : FileStore}
    (hy : FileStore.Reachable cfg blake3 y) :
    (∀ p i h, y.root.lookup p = some i → fileName p = hex h ++ ".bin" →
      chunkPaths (hex h) = .ok p ∧ ∃ f, y.root.inode i = some f ∧ blake3 f.content = h) ∧
    (∀ a y' p i h, y.step cfg blake3 a = some y' → y.root.lookup p = some i →
      fileName p = hex h ++ ".bin" →
      y'.root.inode i = y.root.inode i ∧
      (∀ j, y'.root.lookup p = some j →
        j = i ∨ (a.isCrash = true ∧ (p, j) ∈ y.root.removed)) ∧
      (y'.root.lookup p = none → a.isCrash = true ∨
        ∃ t k th, a = .run t k ∧ y.threads t = some th ∧ th.isSweep = true)) ∧
    ∀ t u c, y.threads t = some (.upload u) → u.wrote c →
      ∃! p, fileName p = hex (blake3 c) ++ ".bin" ∧ (y.root.lookup p).isSome := by
  have inv := hy.inv
  refine ⟨?_, ?_, ?_⟩
  · intro p i h hl hp
    obtain ⟨rfl, hf⟩ := inv.file hl hp
    exact ⟨chunkPaths_hex h, hf⟩
  · intro a y' p i h hs hl hp
    have hname := isChunkName_of_eq hp
    rcases (inv.step hs).2 with hroot | ⟨db, kept, torn, rfl, hroot⟩ | ⟨t, k, th, rfl, hth, hcall⟩
    · rw [hroot, hl]
      exact ⟨rfl, fun j hj => .inl (Option.some.inj hj).symm, nofun⟩
    · rw [hroot]
      obtain ⟨f, hf, hsync, -⟩ := inv.published p i hname (.inl hl)
      refine ⟨by rw [Files.inode_crash kept torn hf hsync, hf], fun j hj => ?_, fun _ => .inl rfl⟩
      rcases Files.had_crash (.inl hj) with hj | hj
      · rw [hl] at hj
        exact .inl (Option.some.inj hj).symm
      · exact .inr ⟨rfl, hj⟩
    · refine ⟨hcall.inode inv.published hname hl, fun j hj => ?_, fun hn => ?_⟩
      · rcases hcall.public hname hl with h' | ⟨-, h'⟩
        · exact .inl (Option.some.inj (hj.symm.trans h'))
        · rw [h'] at hj
          cases hj
      · rcases hcall.public hname hl with h' | ⟨hsw, -⟩
        · rw [h'] at hn
          cases hn
        · refine .inr ⟨t, k, th, rfl, hth, ?_⟩
          cases th with
          | sweep => rfl
          | upload | writing | lifecycle => exact hsw.elim
  · intro t u c hu hw
    have has : y.root.has (chunkPath (blake3 c)) := (inv.threads t _ hu).2 c hw
    refine ⟨chunkPath (blake3 c), ⟨fileName_chunkPath _, has⟩, ?_⟩
    rintro p ⟨hp, hl⟩
    obtain ⟨i, hi⟩ := Option.isSome_iff_exists.1 hl
    exact (inv.file hi hp).1

/-- The chunk whose record the thread is to store. -/
def FileThread.putsRecord : FileThread → Option Bytes
  | .upload u =>
    match u.pc with
    | .putRecord c => some c
    | _ => none
  | _ => none

theorem FileThread.putsRecord_spec {th : FileThread} {c : Bytes} (h : th.putsRecord = some c) :
    ∃ u, th = .upload u ∧ u.pc = .putRecord c := by
  unfold FileThread.putsRecord at h
  split at h
  · next u =>
    split at h
    · next hpc => cases h; exact ⟨u, rfl, hpc⟩
    · cases h
  · cases h

/-- Two uploads have written one chunk, after a crash that left a torn temporary file. -/
theorem chunk_files_complete_sample :
    ∃ y u v, FileStore.Reachable (sampleConfig 4) sampleHash y ∧
      y.threads 1 = some (.upload u) ∧ u.wrote [1, 2] ∧
      y.threads 2 = some (.upload v) ∧ v.wrote [1, 2] ∧
      ∃! p, fileName p = hex (sampleHash [1, 2]) ++ ".bin" ∧ (y.root.lookup p).isSome := by
  have hrun : (Runs.exec (FileStore.step (sampleConfig 4) sampleHash) (.idle ⟨∅, ∅, ∅⟩)
      twoWriters).any (fun y =>
        (y.threads 1).bind FileThread.putsRecord = some [1, 2] &&
        (y.threads 2).bind FileThread.putsRecord = some [1, 2]) = true := by
    decide +kernel
  obtain ⟨y, hexec, hy⟩ := (Option.any_eq_true _ _).1 hrun
  have hreach : FileStore.Reachable (sampleConfig 4) sampleHash y :=
    Runs.Reach.exec (.init ⟨_, rfl⟩) (fun _ _ _ => trivial) hexec
  simp only [Bool.and_eq_true, decide_eq_true_eq, Option.bind_eq_some_iff] at hy
  obtain ⟨⟨th1, h1, hp1⟩, th2, h2, hp2⟩ := hy
  obtain ⟨u, rfl, hu⟩ := FileThread.putsRecord_spec hp1
  obtain ⟨v, rfl, hv⟩ := FileThread.putsRecord_spec hp2
  exact ⟨y, u, v, hreach, h1, .inl hu, h2, .inl hv,
    (chunk_files_complete hreach).2.2 1 u [1, 2] h1 (.inl hu)⟩

end HashBox.Vault
