import HashBox.Lib.Threads
import HashBox.Vault.Proof.Steps

/-!
# One shared Store

With a single `Store` the lifecycle lock and the registry of active uploads do what they are for.
`Inv` ties the lock's holders, the registry and each thread's assertion together; every step of
every call keeps it (`Inv.step`). From it: what is registered is present and stays so, and a
manifest that a commit creates is backed for as long as it stays active.
-/

namespace HashBox.Vault

variable {blake3 : Bytes → Hash} {d d' : Disk} {s s' : Mem} {t : SessionID} {k : Choice}

/-! ## Locks -/

def Upload.reading (u : Upload) : Prop :=
  match u.pc with
  | .getChunk _ | .stat _ | .persist _ _ | .putRecord _ | .mark _ _ | .commit _ | .unregister _ =>
    True
  | .register | .next | .touchLock _ | .commitLock _ | .finish _ | .failed _ | .unregisterLock _
  | .done _ => False

def Sweep.writing (w : Sweep) : Prop :=
  match w.pc with
  | .lock | .done => False
  | .snapshot | .scan _ | .walk .. | .records .. | .removeFile .. | .deleteMetadata ..
  | .orphans _ => True

theorem Sweep.writing_iff {w : Sweep} : w.writing ↔ w.pc ≠ .lock ∧ w.pc ≠ .done := by
  unfold Sweep.writing
  split <;> simp_all

theorem Sweep.writing_of_pending {w : Sweep} {c : Hash} (h : w.pending d c) : w.writing := by
  unfold Sweep.pending at h
  unfold Sweep.writing
  split at h <;> simp_all

theorem uploadStep_lock {u u' : Upload} (h : uploadStep blake3 d s t u k = some (d', s', u'))
    (hr : u.reading → t ∈ s.lifecycleMu.readers) :
    RwLock.Step t s.lifecycleMu s'.lifecycleMu ∧
      (u'.reading → t ∈ s'.lifecycleMu.readers) := by
  have locked : ∀ {l : RwLock SessionID} {P : Prop}, s.lifecycleMu.rlock t = some l →
      RwLock.Step t s.lifecycleMu l ∧ (P → t ∈ l.readers) := fun hl =>
    ⟨.rlock hl, fun _ => (RwLock.rlock_readers hl).1 ▸ List.mem_cons_self⟩
  cases uploadStep_move h with
  | fail k session pc s' hid hpc hs =>
    rcases hpc with ⟨e, rfl⟩ | ⟨r, rfl⟩ <;> rcases hs with rfl | rfl <;>
      first | exact ⟨.none, fun hf => hf.elim⟩ | exact ⟨.runlock, fun hf => hf.elim⟩
  | register | read | build | finish => exact ⟨.none, fun hf => hf.elim⟩
  | touchLock now c l hpc hl | commitLock now c l hpc hl | unregisterLock now r l hpc hl =>
    exact locked hl
  | found now c hpc | missing now c hpc | inPlace now c hpc | lost now c hpc
  | persist now c found hpc | putRecord now c hpc =>
    rw [Upload.reading, hpc] at hr
    exact ⟨.none, fun _ => hr trivial⟩
  | mark | commit | unregister => exact ⟨.runlock, fun hf => hf.elim⟩

theorem lifecycleStep_lock {l l' : Lifecycle} (h : lifecycleStep d s t l k = some (d', s', l')) :
    RwLock.Step t s.lifecycleMu s'.lifecycleMu ∧ s'.activeUploads = s.activeUploads ∧
      (l'.pc = .update → t ∈ s'.lifecycleMu.readers) := by
  unfold lifecycleStep at h
  cases k with
  | pick h' => cases h
  | fail err =>
    dsimp only at h
    split at h <;> cases h
    · exact ⟨.none, rfl, fun hf => by cases hf⟩
    · exact ⟨.runlock, rfl, fun hf => by cases hf⟩
  | go now =>
    dsimp only at h
    split at h
    · obtain ⟨m, hm, he⟩ := Option.map_eq_some_iff.1 h
      cases he
      exact ⟨.rlock hm, rfl, fun _ => (RwLock.rlock_readers hm).1 ▸ List.mem_cons_self⟩
    · split at h <;> cases h <;> exact ⟨.runlock, rfl, fun hf => by cases hf⟩
    · cases h

theorem sweepStep_lock {w w' : Sweep} (h : sweepStep d s t w k = some (d', s', w'))
    (hw : w.writing → s.lifecycleMu.writer = some t) :
    RwLock.Step t s.lifecycleMu s'.lifecycleMu ∧ s'.activeUploads = s.activeUploads ∧
      (w'.writing → s'.lifecycleMu.writer = some t) := by
  cases sweepStep_move h with
  | refused => exact ⟨.none, rfl, fun hf => hf.elim⟩
  | stop k err report hlock hdone =>
    exact ⟨.unlock (hw (Sweep.writing_iff.2 ⟨hlock, hdone⟩)), rfl, fun hf => hf.elim⟩
  | lock now l hpc hl => exact ⟨.lock hl, rfl, fun _ => (RwLock.lock_writer hl).1⟩
  | finish now hpc =>
    rw [Sweep.writing, hpc] at hw
    exact ⟨.unlock (hw trivial), rfl, fun hf => hf.elim⟩
  | skip k err active scan todo b retired hpc =>
    refine ⟨.none, rfl, fun _ => hw ?_⟩
    rcases hpc with hpc | hpc <;> rw [Sweep.writing, hpc] <;> exact trivial
  | snapshot now hpc | scan now active scan hpc | visit b active scan visited f hpc
  | walked now active scan visited hpc | keep b active scan todo report hpc
  | candidate b active scan todo r retired report hpc | recordsDone now active scan hpc
  | removeFile now active scan todo b retired hpc
  | deleteMetadata now active scan todo b retired deleted d' report hpc
  | removeOrphan now b todo report hpc | skipOrphan k err b todo hpc =>
    rw [Sweep.writing, hpc] at hw
    exact ⟨.none, rfl, fun _ => hw trivial⟩

/-! ## The registry -/

def Mem.holds (s : Mem) (c : Hash) : Prop :=
  ∃ uploadID chunks, s.activeUploads.lookup uploadID = some chunks ∧ c ∈ chunks

theorem mem_snapshot {a : ActiveUploads} {c : Hash} {uploadID : SessionID} {chunks : List Hash}
    (h : a.lookup uploadID = some chunks) (hc : c ∈ chunks) : c ∈ snapshotActiveChunkHashes a :=
  List.mem_flatMap.2 ⟨(uploadID, chunks), Dict.mem_toList.2 h, hc⟩

theorem lookup_markActiveUploadChunk (a : ActiveUploads) (uploadID i : SessionID) (c : Hash) :
    (markActiveUploadChunk a uploadID c).lookup i =
      if i = uploadID then (a.lookup uploadID).map fun chunks => c :: chunks else a.lookup i := by
  unfold markActiveUploadChunk
  split
  · next hn =>
    split
    · next he => rw [he, hn, Option.map_none]
    · rfl
  · next chunks hl => rw [Dict.lookup_insert_if, hl, Option.map_some]

/-- Until its commit the upload is registered with all chunks it has been through. -/
def Upload.Registered (s : Mem) (u : Upload) : Prop :=
  match u.pc with
  | .register => u.chunkHashes = []
  | .next | .touchLock _ | .getChunk _ | .stat _ | .persist _ _ | .putRecord _ | .mark _ _
  | .commitLock _ | .commit _ =>
    ∃ chunks, s.activeUploads.lookup u.session.sessionID = some chunks ∧
      ∀ c ∈ u.chunkHashes, c ∈ chunks
  | .finish _ | .failed _ | .unregisterLock _ | .unregister _ | .done _ => True

theorem Upload.Registered.congr {u : Upload} (h : u.Registered s)
    (hs : s'.activeUploads.lookup u.session.sessionID =
      s.activeUploads.lookup u.session.sessionID) : u.Registered s' := by
  unfold Upload.Registered at h ⊢
  rw [hs]
  exact h

/-- An uncommitted upload outside the lock has touched registered chunks only. -/
theorem Upload.Registered.holds {u : Upload} (h : u.Registered s) (hr : ¬ u.reading) {c : Hash}
    (hc : c ∈ u.touched blake3) : s.holds c := by
  unfold Upload.Registered at h
  unfold Upload.touched at hc
  split at h <;> simp_all [Upload.reading] <;>
    exact ⟨_, _, h.choose_spec.1, h.choose_spec.2 c hc⟩

theorem uploadStep_session {u u' : Upload} (h : uploadStep blake3 d s t u k = some (d', s', u')) :
    u'.session.sessionID = u.session.sessionID := by
  cases uploadStep_move h with
  | fail k session pc s' hid => exact hid
  | finish now session r hid => exact hid
  | register | read | build | touchLock | found | missing | inPlace | lost | persist | putRecord
  | mark | commitLock | commit | unregisterLock | unregister => rfl

/-- A step changes the registry at its own upload, and adds to it by `mark` only. -/
theorem uploadStep_registry {u u' : Upload} (h : uploadStep blake3 d s t u k = some (d', s', u')) :
    (∀ i, i ≠ u.session.sessionID → s'.activeUploads.lookup i = s.activeUploads.lookup i) ∧
      ∀ c, s'.holds c → s.holds c ∨ ∃ b created, u.pc = .mark b created ∧ c = blake3 b := by
  have same : s'.activeUploads = s.activeUploads →
      (∀ i, i ≠ u.session.sessionID → s'.activeUploads.lookup i = s.activeUploads.lookup i) ∧
      ∀ c, s'.holds c → s.holds c ∨ ∃ b created, u.pc = .mark b created ∧ c = blake3 b := by
    intro he
    simp only [Mem.holds, he]
    exact ⟨fun _ _ => trivial, fun _ => .inl⟩
  cases uploadStep_move h with
  | fail k session pc s' hid hpc hs => rcases hs with rfl | rfl <;> exact same rfl
  | register =>
    refine ⟨fun i hi => by simp only [registerActiveUpload, Dict.lookup_insert_if, hi, if_false],
      fun c hc => ?_⟩
    obtain ⟨i, chunks, hl, hm⟩ := hc
    simp only [registerActiveUpload] at hl
    rcases Dict.lookup_insert_cases hl with ⟨-, rfl⟩ | ⟨-, hl⟩
    · cases hm
    · exact .inl ⟨i, chunks, hl, hm⟩
  | mark now b created hpc =>
    refine ⟨fun i hi => by rw [lookup_markActiveUploadChunk, if_neg hi], fun c hc => ?_⟩
    obtain ⟨i, chunks, hl, hm⟩ := hc
    dsimp only at hl
    rw [lookup_markActiveUploadChunk] at hl
    split at hl
    · obtain ⟨chunks, hl', rfl⟩ := Option.map_eq_some_iff.1 hl
      rcases List.mem_cons.1 hm with rfl | hm
      · exact .inr ⟨b, created, hpc, rfl⟩
      · exact .inl ⟨_, chunks, hl', hm⟩
    · exact .inl ⟨i, chunks, hl, hm⟩
  | unregister =>
    refine ⟨fun i hi => by simp only [unregisterActiveUpload, Dict.lookup_erase_if, hi, if_false],
      fun c hc => ?_⟩
    obtain ⟨i, chunks, hl, hm⟩ := hc
    simp only [unregisterActiveUpload, Dict.lookup_erase_if] at hl
    split at hl
    · cases hl
    · exact .inl ⟨i, chunks, hl, hm⟩
  | read | build | touchLock | found | missing | inPlace | lost | persist | putRecord | commitLock
  | commit | finish | unregisterLock => exact same rfl

theorem Upload.Registered.step {u u' : Upload} (hu : u.Registered s)
    (h : uploadStep blake3 d s t u k = some (d', s', u')) : u'.Registered s' := by
  cases uploadStep_move h with
  | fail k session pc s' hid hpc => rcases hpc with ⟨e, rfl⟩ | ⟨r, rfl⟩ <;> exact trivial
  | register now hpc =>
    rw [Upload.Registered, hpc] at hu
    refine ⟨[], by simp only [registerActiveUpload, Dict.lookup_insert_if, if_true], ?_⟩
    intro c hc
    rw [hu] at hc
    cases hc
  | persist now c found hpc =>
    rw [Upload.Registered, hpc] at hu
    cases found <;> exact hu
  | mark now c created hpc =>
    rw [Upload.Registered, hpc] at hu
    obtain ⟨chunks, hl, hc⟩ := hu
    refine ⟨blake3 c :: chunks, ?_, fun c' hc' => ?_⟩
    · dsimp only
      rw [lookup_markActiveUploadChunk, if_pos rfl, hl, Option.map_some]
    · rcases List.mem_append.1 hc' with hc' | hc'
      · exact List.mem_cons_of_mem _ (hc c' hc')
      · rw [List.mem_singleton.1 hc']
        exact List.mem_cons_self
  | read now c rest hpc | build now hpc | touchLock now c l hpc | found now c hpc
  | missing now c hpc | inPlace now c hpc | lost now c hpc | putRecord now c hpc
  | commitLock now m l hpc =>
    rw [Upload.Registered, hpc] at hu
    exact hu
  | commit | finish | unregisterLock | unregister => exact trivial

/-! ## The threads' assertions -/

structure Upload.Local (blake3 : Bytes → Hash) (d : Disk) (s : Mem) (t : SessionID) (u : Upload) :
    Prop where
  ok : u.Ok blake3 d
  session : u.session.sessionID = t
  registered : u.Registered s
  lock : u.reading → t ∈ s.lifecycleMu.readers

structure Sweep.Local (d : Disk) (s : Mem) (t : SessionID) (w : Sweep) : Prop where
  lock : w.writing → s.lifecycleMu.writer = some t
  snapshot : ∀ active, w.pc = .scan active → ∀ c, s.holds c → c ∈ active
  pending : ∀ c, w.pending d c → ¬ d.referenced c ∧ ¬ s.holds c

/-- What a thread knows, whatever the others do. -/
def Thread.Local (blake3 : Bytes → Hash) (d : Disk) (s : Mem) (t : SessionID) : Thread → Prop
  | .upload u => u.Local blake3 d s t
  | .lifecycle l => l.pc = .update → t ∈ s.lifecycleMu.readers
  | .sweep w => w.Local d s t

/-- What the others may rely on: only the writer removes, and neither a chunk of the registry nor
one of an active manifest; only a reader writes files, changes manifests or adds to the registry. -/
structure Respects (d d' : Disk) (s s' : Mem) (t : SessionID) : Prop where
  lock : RwLock.Step t s.lifecycleMu s'.lifecycleMu
  kept : ∀ c, ((d.hasRecord c → d'.hasRecord c) ∧ (d.hasFile c → d'.hasFile c)) ∨
    (s.lifecycleMu.writer = some t ∧ ¬ d.referenced c ∧ ¬ s.holds c)
  files : t ∈ s.lifecycleMu.readers ∨ d.NoNewFile d'
  manifests : t ∈ s.lifecycleMu.readers ∨ d'.manifests = d.manifests
  holds : t ∈ s.lifecycleMu.readers ∨ ∀ c, s'.holds c → s.holds c
  registry : ∀ i, i ≠ t → s'.activeUploads.lookup i = s.activeUploads.lookup i

theorem Mem.holds_congr {s s' : Mem} (h : s'.activeUploads = s.activeUploads) (c : Hash) :
    s'.holds c ↔ s.holds c := by
  simp only [Mem.holds, h]

theorem uploadStep_respects {u u' : Upload} (hu : u.Local blake3 d s t)
    (h : uploadStep blake3 d s t u k = some (d', s', u')) : Respects d d' s s' t := by
  obtain ⟨hgrows, hman⟩ := uploadStep_disk h
  obtain ⟨hlook, hholds⟩ := uploadStep_registry h
  refine ⟨(uploadStep_lock h hu.lock).1, fun c => .inl ⟨hgrows.record c, hgrows.file c⟩, ?_, ?_,
    ?_, hu.session ▸ hlook⟩
  · rcases uploadStep_files h with hf | ⟨⟨c, found, hpc⟩, -⟩
    · exact .inr hf
    · exact .inl (hu.lock (by simp only [Upload.reading, hpc]))
  · rcases hman with hman | ⟨m, hc, -⟩
    · exact .inr hman
    · exact .inl (hu.lock (by simp only [Upload.reading, (Thread.commits_upload hc).1]))
  · by_cases hr : u.reading
    · exact .inl (hu.lock hr)
    · refine .inr fun c hc => (hholds c hc).resolve_right ?_
      rintro ⟨b, created, hpc, -⟩
      exact hr (by simp only [Upload.reading, hpc])

theorem lifecycleStep_respects {l l' : Lifecycle}
    (hl : l.pc = .update → t ∈ s.lifecycleMu.readers)
    (h : lifecycleStep d s t l k = some (d', s', l')) : Respects d d' s s' t := by
  obtain ⟨hgrows, hfiles, hman⟩ := lifecycleStep_disk h
  obtain ⟨hlock, hreg, -⟩ := lifecycleStep_lock h
  refine ⟨hlock, fun c => .inl ⟨hgrows.record c, hgrows.file c⟩, .inr (.of_eq hfiles), ?_,
    .inr fun c => (Mem.holds_congr hreg c).1, fun i _ => by rw [hreg]⟩
  rcases hman with hman | ⟨now, hpc, -⟩
  · exact .inr hman
  · exact .inl (hl hpc)

theorem sweepStep_respects {w w' : Sweep} (hw : w.Local d s t)
    (h : sweepStep d s t w k = some (d', s', w')) : Respects d d' s s' t := by
  obtain ⟨hman, hfiles, hkept⟩ := sweepStep_disk h
  obtain ⟨hlock, hreg, -⟩ := sweepStep_lock h hw.lock
  refine ⟨hlock, fun c => ?_, .inr hfiles, .inr hman, .inr fun c => (Mem.holds_congr hreg c).1,
    fun i _ => by rw [hreg]⟩
  by_cases hc : w.removes d k = some c
  · have hp := Sweep.pending_of_removes hc
    exact .inr ⟨hw.lock (Sweep.writing_of_pending hp), hw.pending c hp⟩
  · exact .inl (hkept c hc)

theorem Thread.step_respects {th th' : Thread} (hl : th.Local blake3 d s t)
    (h : th.step blake3 d s t k = some (d', s', th')) : Respects d d' s s' t := by
  unfold Thread.step at h
  cases th with
  | upload u =>
    obtain ⟨r, hr, he⟩ := Option.map_eq_some_iff.1 h
    cases he
    exact uploadStep_respects hl hr
  | lifecycle l =>
    obtain ⟨r, hr, he⟩ := Option.map_eq_some_iff.1 h
    cases he
    exact lifecycleStep_respects hl hr
  | sweep w =>
    obtain ⟨r, hr, he⟩ := Option.map_eq_some_iff.1 h
    cases he
    exact sweepStep_respects hl hr

theorem sweepStep_scan {w w' : Sweep} {active : List Hash}
    (h : sweepStep d s t w k = some (d', s', w')) (hpc : w'.pc = .scan active) :
    active = snapshotActiveChunkHashes s.activeUploads := by
  cases sweepStep_move h with
  | snapshot => cases hpc; rfl
  | refused | stop | lock | scan | visit | walked | keep | candidate | recordsDone | removeFile
  | deleteMetadata | skip | removeOrphan | skipOrphan | finish => cases hpc

/-- **A thread's own steps keep its assertion.** -/
theorem Thread.Local.step {th th' : Thread} (hl : th.Local blake3 d s t)
    (h : th.step blake3 d s t k = some (d', s', th')) : th'.Local blake3 d' s' t := by
  unfold Thread.step at h
  cases th with
  | upload u =>
    obtain ⟨⟨d1, s1, u'⟩, hr, he⟩ := Option.map_eq_some_iff.1 h
    cases he
    exact ⟨hl.ok.step hr, (uploadStep_session hr).trans hl.session, hl.registered.step hr,
      (uploadStep_lock hr hl.lock).2⟩
  | lifecycle l =>
    obtain ⟨⟨d1, s1, l'⟩, hr, he⟩ := Option.map_eq_some_iff.1 h
    cases he
    exact (lifecycleStep_lock hr).2.2
  | sweep w =>
    obtain ⟨⟨d1, s1, w'⟩, hr, he⟩ := Option.map_eq_some_iff.1 h
    cases he
    obtain ⟨-, hreg, hlock⟩ := sweepStep_lock hr hl.lock
    have hman := (sweepStep_disk hr).1
    refine ⟨hlock, fun active hpc c hc => ?_, fun c hc => ?_⟩
    · obtain ⟨i, chunks, hi, hm⟩ := (Mem.holds_congr hreg c).1 hc
      rw [sweepStep_scan hr hpc]
      exact mem_snapshot hi hm
    · rw [Disk.referenced_congr hman, Mem.holds_congr hreg]
      rcases sweepStep_pending hr with hp | ⟨active, hpc, hp⟩
      · exact hl.pending c (hp c hc)
      · exact ⟨(hp c hc).1, fun hh => (hp c hc).2 (hl.snapshot active hpc c hh)⟩

/-- **So do the steps of the others.** -/
theorem Thread.Local.frame {th : Thread} {u : SessionID} (hl : th.Local blake3 d s u)
    (h : Respects d d' s s' t) (hwf : s.lifecycleMu.WF) (hne : u ≠ t) :
    th.Local blake3 d' s' u := by
  cases th with
  | upload v =>
    have hl : v.Local blake3 d s u := hl
    refine ⟨hl.ok.frame fun c hc => ?_, hl.session, hl.registered.congr ?_,
      fun hr => h.lock.readers hne (hl.lock hr)⟩
    · refine (h.kept c).resolve_right fun hw => ?_
      by_cases hr : v.reading
      · rw [hwf.not_writing (hl.lock hr)] at hw
        cases hw.1
      · exact hw.2.2 (hl.registered.holds hr hc)
    · exact h.registry _ (hl.session ▸ hne)
  | lifecycle l => exact fun hpc => h.lock.readers hne (hl hpc)
  | sweep w =>
    have hl : w.Local d s u := hl
    by_cases hw : w.writing
    · have hnr : t ∉ s.lifecycleMu.readers := hwf.not_reading (hl.lock hw) t
      have hman := h.manifests.resolve_left hnr
      have hholds := h.holds.resolve_left hnr
      refine ⟨fun hw => h.lock.writer hne (hl.lock hw),
        fun active hpc c hc => hl.snapshot active hpc c (hholds c hc), fun c hc => ?_⟩
      rw [Disk.referenced_congr hman]
      have hp := hl.pending c (Sweep.pending_of_file (h.files.resolve_left hnr c) hc)
      exact ⟨hp.1, fun hh => hp.2 (hholds c hh)⟩
    · refine ⟨fun hw' => absurd hw' hw, fun active hpc => ?_,
        fun c hc => absurd (Sweep.writing_of_pending hc) hw⟩
      exact absurd (by simp only [Sweep.writing, hpc]) hw

/-- What the registry holds stays present, and what a step adds to it is. -/
theorem Thread.step_registry {th th' : Thread} (hl : th.Local blake3 d s t)
    (hreg : ∀ c, s.holds c → d.present c)
    (h : th.step blake3 d s t k = some (d', s', th')) : ∀ c, s'.holds c → d'.present c := by
  have hold : ∀ c, s.holds c → d'.present c := fun c hc => by
    have hk := ((Thread.step_respects hl h).kept c).resolve_right fun hw => hw.2.2 hc
    exact ⟨hk.1 (hreg c hc).1, hk.2 (hreg c hc).2⟩
  unfold Thread.step at h
  intro c hc
  cases th with
  | upload u =>
    obtain ⟨⟨d1, s1, u'⟩, hr, he⟩ := Option.map_eq_some_iff.1 h
    cases he
    have hok : u.Ok blake3 d := hl.ok
    rcases (uploadStep_registry hr).2 c hc with hc | ⟨b, created, hpc, rfl⟩
    · exact hold c hc
    · simp only [Upload.Ok, hpc] at hok
      exact (uploadStep_disk hr).1.present hok.1
  | lifecycle l =>
    obtain ⟨⟨d1, s1, l'⟩, hr, he⟩ := Option.map_eq_some_iff.1 h
    cases he
    exact hold c ((Mem.holds_congr (lifecycleStep_lock hr).2.1 c).1 hc)
  | sweep w =>
    obtain ⟨⟨d1, s1, w'⟩, hr, he⟩ := Option.map_eq_some_iff.1 h
    cases he
    have hw : w.Local d s t := hl
    exact hold c ((Mem.holds_congr (sweepStep_lock hr hw.lock).2.1 c).1 hc)

/-! ## The system -/

structure Inv (blake3 : Bytes → Hash) (y : System Unit) : Prop where
  lock : (y.mem ()).lifecycleMu.WF
  registry : ∀ c, (y.mem ()).holds c → y.disk.present c
  threads : Threads.All (fun t e => e.2.Local blake3 y.disk (y.mem ()) t) y.threads

theorem Inv.idle (d : Disk) : Inv blake3 (.idle d) :=
  ⟨.free, fun _ ⟨_, _, hl, _⟩ => (by cases hl), .empty⟩

variable {cfg : FastCdc.Config} {y y' : System Unit} {a : Action Unit}

theorem Inv.spawn {store : Unit} {th : Thread} (hy : Inv blake3 y)
    (h : y.spawn t store d' th = some y') (hrec : d'.chunks = y.disk.chunks)
    (hfile : d'.files = y.disk.files) (hman : d'.manifests = y.disk.manifests)
    (hth : th.Local blake3 d' (y.mem ()) t) : Inv blake3 y' := by
  unfold System.spawn at h
  split at h
  · cases h
  · cases h
    have hp : ∀ c, d'.present c ↔ y.disk.present c := fun c => by
      simp only [Disk.present, Disk.hasRecord, Disk.hasFile, hrec, hfile]
    refine ⟨hy.lock, fun c hc => (hp c).2 (hy.registry c hc), hy.threads.update ?_ hth⟩
    intro u e hne _ hl
    refine hl.frame ⟨.none, fun c => .inl ?_, .inr (.of_eq hfile), .inr hman, .inr fun _ => id,
      fun _ _ => rfl⟩ hy.lock hne
    simp only [Disk.hasRecord, Disk.hasFile, hrec, hfile]
    exact ⟨id, id⟩

/-- **Every step of every call keeps the invariant.** -/
theorem Inv.step (hy : Inv blake3 y) (h : y.step cfg blake3 a = some y') : Inv blake3 y' := by
  cases a with
  | processUpload t store fileName bytes now =>
    exact hy.spawn h rfl rfl rfl ⟨Upload.ok_start _ _ _ _, rfl, rfl, fun hr => hr.elim⟩
  | updateManifestLifecycle t store manifestID retired =>
    exact hy.spawn h rfl rfl rfl fun hpc => by cases hpc
  | collectGarbage t store olderThan =>
    exact hy.spawn h rfl rfl rfl
      ⟨fun hw => hw.elim, fun _ hpc => (by cases hpc), fun _ hp => hp.elim⟩
  | run t k =>
    simp only [System.step] at h
    split at h
    · cases h
    · next store th ht =>
      obtain ⟨⟨d', s', th'⟩, hstep, he⟩ := Option.map_eq_some_iff.1 h
      cases he
      have hl : th.Local blake3 y.disk (y.mem ()) t := hy.threads t _ ht
      have hres := Thread.step_respects hl hstep
      refine ⟨hres.lock.wf hy.lock, fun c hc => ?_, hy.threads.update ?_ ?_⟩
      · exact Thread.step_registry hl hy.registry hstep c hc
      · intro u e hne _ hu
        exact hu.frame hres hy.lock hne
      · exact hl.step hstep

/-- A step removes nothing of a chunk that is registered or that an active manifest lists. -/
theorem Inv.kept (hy : Inv blake3 y) (h : y.step cfg blake3 a = some y') {c : Hash}
    (hc : y.disk.referenced c ∨ (y.mem ()).holds c) (hp : y.disk.present c) :
    y'.disk.present c := by
  have spawn : ∀ {t : SessionID} {d : Disk} {th : Thread}, y.spawn t () d th = some y' →
      y'.disk = d := fun hs => by
    unfold System.spawn at hs
    split at hs
    · cases hs
    · cases hs; rfl
  cases a with
  | processUpload t store fileName bytes now => rw [spawn h]; exact hp
  | updateManifestLifecycle t store manifestID retired => rw [spawn h]; exact hp
  | collectGarbage t store olderThan => rw [spawn h]; exact hp
  | run t k =>
    simp only [System.step] at h
    split at h
    · cases h
    · next store th ht =>
      obtain ⟨⟨d', s', th'⟩, hstep, he⟩ := Option.map_eq_some_iff.1 h
      cases he
      have hk := ((Thread.step_respects (hy.threads t _ ht) hstep).kept c).resolve_right
        fun hw => hc.elim hw.2.1 hw.2.2
      exact ⟨hk.1 hp.1, hk.2 hp.2⟩

theorem System.step_manifest {ι : Type} [DecidableEq ι] {y y' : System ι} {a : Action ι}
    {manifestID : Hash} {m : ManifestRecord} (h : y.step cfg blake3 a = some y')
    (hm : y.disk.manifests.lookup manifestID = some m) :
    ∃ m', y'.disk.manifests.lookup manifestID = some m' ∧ m.SameObject m' := by
  have spawn : ∀ {t : SessionID} {store : ι} {d : Disk} {th : Thread},
      y.spawn t store d th = some y' → d.manifests = y.disk.manifests →
      ∃ m', y'.disk.manifests.lookup manifestID = some m' ∧ m.SameObject m' := fun hs he => by
    unfold System.spawn at hs
    split at hs
    · cases hs
    · cases hs; exact ⟨m, by rw [he, hm], .refl m⟩
  cases a with
  | processUpload t store fileName bytes now => exact spawn h rfl
  | updateManifestLifecycle t store manifestID retired => exact spawn h rfl
  | collectGarbage t store olderThan => exact spawn h rfl
  | run t k =>
    simp only [System.step] at h
    split at h
    · cases h
    · next store th ht =>
      obtain ⟨⟨d', s', th'⟩, hstep, he⟩ := Option.map_eq_some_iff.1 h
      cases he
      exact Thread.step_manifest hstep hm

theorem Inv.created (hy : Inv blake3 y) (h : y.step cfg blake3 a = some y') {manifestID : Hash}
    {m : ManifestRecord} (hn : y.disk.manifests.lookup manifestID = none)
    (hm : y'.disk.manifests.lookup manifestID = some m) : y'.disk.backed m := by
  have spawn : ∀ {t : SessionID} {d : Disk} {th : Thread}, y.spawn t () d th = some y' →
      d.manifests = y.disk.manifests → False := fun hs he => by
    unfold System.spawn at hs
    split at hs
    · cases hs
    · cases hs; rw [he, hn] at hm; cases hm
  cases a with
  | processUpload t store fileName bytes now => exact (spawn h rfl).elim
  | updateManifestLifecycle t store manifestID retired => exact (spawn h rfl).elim
  | collectGarbage t store olderThan => exact (spawn h rfl).elim
  | run t k =>
    simp only [System.step] at h
    split at h
    · cases h
    · next store th ht =>
      obtain ⟨⟨d', s', th'⟩, hstep, he⟩ := Option.map_eq_some_iff.1 h
      cases he
      obtain ⟨u, mm, rfl, hpc, -, rfl, hg⟩ := Thread.step_created hstep hn hm
      have hl : u.Local blake3 y.disk (y.mem ()) t := hy.threads t _ ht
      have hok := hl.ok
      simp only [Upload.Ok, hpc] at hok
      exact fun c hc => hg.present (hok.2 c (hok.1 ▸ hc))

theorem Inv.backed_run {z : System Unit} {manifestID : Hash} {m : ManifestRecord}
    (hy : Inv blake3 y) (hm : y.disk.manifests.lookup manifestID = some m)
    (hb : y.disk.backed m)
    (h : Runs.Reach (System.step cfg blake3) (fun z _ => z.disk.active manifestID) (· = y) z) :
    z.disk.backed m := by
  suffices Inv blake3 z ∧ (∃ m', z.disk.manifests.lookup manifestID = some m' ∧
      m.SameObject m') ∧ z.disk.backed m from this.2.2
  refine h.inv (P := fun z => Inv blake3 z ∧ (∃ m', z.disk.manifests.lookup manifestID = some m' ∧
    m.SameObject m') ∧ z.disk.backed m) (fun _ hs => ?_) ?_
  · subst hs
    exact ⟨hy, ⟨m, hm, .refl m⟩, hb⟩
  intro s a s' ⟨hs, ⟨m', hm', hsame⟩, hb⟩ hact hstep
  refine ⟨hs.step hstep, ?_, fun c hc => ?_⟩
  · obtain ⟨m'', hm'', hsame'⟩ := System.step_manifest hstep hm'
    exact ⟨m'', hm'', hsame.trans hsame'⟩
  · obtain ⟨e, he, hr⟩ := hact
    rw [hm'] at he
    cases he
    exact hs.kept hstep (.inl ⟨manifestID, m', hm', hr, hsame.chunkHashes ▸ hc⟩) (hb c hc)

theorem Inv.reachable (h : y.Reachable cfg blake3 d) : Inv blake3 y :=
  h.inv (fun _ hs => hs ▸ .idle d) fun _ _ _ hy _ hstep => hy.step hstep

/-- **One shared store keeps uploads and sweeps apart.** A manifest that a commit creates is backed
then and for as long as it stays active; a chunk that a registered upload has touched is present,
and no step removes its file or its record. -/
theorem single_store_safe (h : y.Reachable cfg blake3 d) :
    (∀ a y' manifestID m, y.step cfg blake3 a = some y' →
      y.disk.manifests.lookup manifestID = none →
      y'.disk.manifests.lookup manifestID = some m →
      y'.disk.backed m ∧ ∀ z, Runs.Reach (System.step cfg blake3)
        (fun z _ => z.disk.active manifestID) (· = y') z → z.disk.backed m) ∧
    ∀ c, (y.mem ()).holds c →
      y.disk.present c ∧ ∀ a y', y.step cfg blake3 a = some y' → y'.disk.present c := by
  have hy := Inv.reachable h
  refine ⟨fun a y' manifestID m hstep hn hm => ?_, fun c hc => ?_⟩
  · have hb := hy.created hstep hn hm
    exact ⟨hb, fun z hz => (hy.step hstep).backed_run hm hb hz⟩
  · have hp := hy.registry c hc
    exact ⟨hp, fun a y' hstep => hy.kept hstep (.inr hc) hp⟩

/-- An upload of one chunk up to its commit transaction, while a sweep waits for the lock. -/
def sampleUpload : List (Action Unit) :=
  .collectGarbage 2 () 9 :: .processUpload 1 () "a.bin" [7] 5 :: runs 1 9 5

theorem single_store_safe_sample :
    ∃ y y' m, Runs.exec (System.step (sampleConfig 1) sampleHash) (.idle .empty) sampleUpload =
        some y ∧
      y.step (sampleConfig 1) sampleHash (.run 1 (.go 5)) = some y' ∧
      y'.disk.manifests.lookup (sampleHash [7]) = some m ∧ y'.disk.backed m ∧
      y.disk.present (sampleHash [7]) := by
  have before : (Runs.exec (System.step (sampleConfig 1) sampleHash) (.idle .empty)
      sampleUpload).any (fun y => (y.disk.manifests.lookup (sampleHash [7])).isNone &&
        (y.mem ()).activeUploads.lookup 1 == some [sampleHash [7]]) = true := by decide
  have after : (Runs.exec (System.step (sampleConfig 1) sampleHash) (.idle .empty)
      (sampleUpload ++ [.run 1 (.go 5)])).any
        (fun y => (y.disk.manifests.lookup (sampleHash [7])).isSome) = true := by decide
  obtain ⟨y, hy, hb⟩ := (Option.any_eq_true _ _).1 before
  rw [Runs.exec_append, hy, Option.bind_some] at after
  obtain ⟨y', hy', ha⟩ := (Option.any_eq_true _ _).1 after
  obtain ⟨y'', hstep, he⟩ := Option.bind_eq_some_iff.1 hy'
  cases he
  obtain ⟨m, hm⟩ := Option.isSome_iff_exists.1 ha
  simp only [Bool.and_eq_true, Option.isNone_iff_eq_none, beq_iff_eq] at hb
  have safe := single_store_safe (Runs.Reach.exec (.init rfl) (fun _ _ _ => trivial) hy)
  exact ⟨y, y', m, hy, hstep, hm, (safe.1 _ y' _ m hstep hb.1 hm).1,
    (safe.2 _ ⟨1, _, hb.2, List.mem_singleton_self _⟩).1⟩

end HashBox.Vault
