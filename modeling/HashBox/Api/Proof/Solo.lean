import HashBox.Api.Calls
import HashBox.Api.Proof.LastReference

/-!
# A transaction that runs alone

Statement by statement and alone, each of the three transactions ends with what its function on the
whole database computes: `PermanentDelete` and `PermanentDeleteSubtree` with `permanentDeleteFile`
and `permanentDeleteSubtree`, `MarkCommitted` with `markCommitted`.
-/

namespace HashBox.Api

structure Shared.Alone (db : Db) (s : Shared) : Prop where
  db : s.db = db
  rowLocks : ∀ id, s.rowLocks id = none ∨ s.rowLocks id = some 0
  advisory : ∀ k, s.advisory k = none ∨ s.advisory k = some 0

/-- The steps of the one transaction up to its commit. -/
def soloStep (key : Hash → BitVec 64) (c : Shared × Txn) (_ : Unit) : Option (Shared × Txn) :=
  match c.2.next key c.1 0 with
  | some (.goes s x) => some (s, x)
  | _ => none

/-- Alone, the transaction gets from `x` to `x'`. -/
def Goes (key : Hash → BitVec 64) (db : Db) (x x' : Txn) : Prop :=
  ∀ s : Shared, s.Alone db → ∃ s', s'.Alone db ∧
    Runs.Reach (soloStep key) (fun _ _ => True) (· = (s, x)) (s', x')

variable {key : Hash → BitVec 64} {db : Db} {s s' : Shared} {x x' x'' : Txn}

namespace Goes

theorem refl (x : Txn) : Goes key db x x := fun s hs => ⟨s, hs, .init rfl⟩

theorem trans (h : Goes key db x x') (h' : Goes key db x' x'') : Goes key db x x'' := by
  intro s hs
  obtain ⟨s1, hs1, hr1⟩ := h s hs
  obtain ⟨s2, hs2, hr2⟩ := h' s1 hs1
  exact ⟨s2, hs2, hr1.trans hr2⟩

theorem step
    (h : ∀ s : Shared, s.Alone db → ∃ s', s'.Alone db ∧ x.next key s 0 = some (.goes s' x')) :
    Goes key db x x' := by
  intro s hs
  obtain ⟨s', hs', hn⟩ := h s hs
  refine ⟨s', hs', .next (.init rfl) trivial (a := ()) ?_⟩
  simp only [soloStep, hn]

end Goes

/-! ## Locks are free -/

theorem acquire_alone {κ : Type} [DecidableEq κ] {l : Locks κ} (hl : ∀ k, l k = none ∨ l k = some 0)
    (k : κ) : ∃ l', l.acquire 0 k = some l' ∧ ∀ k, l' k = none ∨ l' k = some 0 := by
  refine ⟨_, if_pos (hl k), fun k' => ?_⟩
  by_cases hk : k' = k
  · subst hk
    simp
  · simpa [hk] using hl k'

theorem Shared.Alone.lock (key : Hash → BitVec 64) (hs : s.Alone db) (id : Hash) :
    ∃ s', s'.Alone db ∧ s.lockLifecycle key 0 id = some s' := by
  obtain ⟨l, hl, hfree⟩ := acquire_alone hs.advisory (key id)
  exact ⟨{ s with advisory := l }, ⟨hs.db, hs.rowLocks, hfree⟩, by simp [Shared.lockLifecycle, hl]⟩

theorem Shared.Alone.visit (hs : s.Alone db) {cond : FileRow → Bool} {f : FileRow}
    (hf : f ∈ db.files.rows) (hd : f.idBerkas ∉ x.deleted) (hc : cond f = true) :
    ∃ s', s'.Alone db ∧ s.visit 0 x cond f.idBerkas = some (s', some f) := by
  obtain ⟨l, hl, hfree⟩ := acquire_alone hs.rowLocks f.idBerkas
  refine ⟨{ s with rowLocks := l }, ⟨hs.db, hfree, hs.advisory⟩, ?_⟩
  have hfind : (x.view db).find? (fun r => decide (r.idBerkas = f.idBerkas)) = some f := by
    cases hfind : (x.view db).find? (fun r => decide (r.idBerkas = f.idBerkas)) with
    | none =>
      have hno := List.find?_eq_none.1 hfind f (Txn.mem_view.2 ⟨hf, hd⟩)
      simp at hno
    | some g =>
      have hg := (Txn.mem_view.1 (List.mem_of_find?_eq_some hfind)).1
      have hk : g.idBerkas = f.idBerkas := by simpa using List.find?_some hfind
      rw [Table.eq_of_key hg hf hk]
  simp [Shared.visit, Scan.visit, hs.db, hfind, hl, hc]

/-! ## The loops -/

theorem goes_finding (cond : FileRow → Bool) :
    ∀ (rows : List FileRow) (x : Txn), (∀ f ∈ rows, f ∈ db.files.rows ∧ cond f = true) →
      x.deleted = [] → x.point = .finding ⟨cond, rows.map (·.idBerkas)⟩ →
      Goes key db x { x with
        point := .finding ⟨cond, []⟩
        manifestRows := x.manifestRows ++ rows.map (·.idManifest) } := by
  intro rows
  induction rows with
  | nil =>
    intro x _ _ hp
    obtain ⟨call, point, now, sub, man, del, d, u, q⟩ := x
    cases hp
    simpa using Goes.refl _
  | cons f rows ih =>
    intro x hrows hd hp
    have hf := hrows f List.mem_cons_self
    refine Goes.trans (.step fun s hs => ?_) ((ih { x with
      point := .finding ⟨cond, rows.map (·.idBerkas)⟩
      manifestRows := x.manifestRows ++ [f.idManifest] }
      (fun g hg => hrows g (List.mem_cons_of_mem _ hg)) hd rfl).trans ?_)
    · obtain ⟨s', hs', hv⟩ := hs.visit (x := x) hf.1 (by simp [hd]) hf.2
      exact ⟨s', hs', by simp [Txn.next, hp, hv]⟩
    · simpa using Goes.refl _

theorem goes_locks {p : List Hash → TxnPoint}
    (hnext : ∀ (s : Shared) (x : Txn) (id : Hash) (todo : List Hash), x.point = p (id :: todo) →
      x.next key s 0 = (s.lockLifecycle key 0 id).map fun s => .goes s { x with point := p todo }) :
    ∀ (ids : List Hash) (x : Txn), x.point = p ids → Goes key db x { x with point := p [] } := by
  intro ids
  induction ids with
  | nil =>
    intro x hp
    obtain ⟨call, point, now, sub, man, del, d, u, q⟩ := x
    cases hp
    exact .refl _
  | cons id ids ih =>
    intro x hp
    refine Goes.trans (.step fun s hs => ?_) (ih { x with point := p ids } rfl)
    obtain ⟨s', hs', hl⟩ := hs.lock key id
    exact ⟨s', hs', by rw [hnext s x id ids hp, hl, Option.map_some]⟩

theorem goes_deleting (cond : FileRow → Bool) :
    ∀ (rows : List FileRow) (x : Txn), (rows.map (·.idBerkas)).Nodup →
      (∀ f ∈ rows, f ∈ db.files.rows ∧ f.idBerkas ∉ x.deleted ∧ cond f = true) →
      x.point = .deleting ⟨cond, rows.map (·.idBerkas)⟩ →
      Goes key db x { x with
        point := .deleting ⟨cond, []⟩
        deletedRows := x.deletedRows ++ rows.map (·.idManifest)
        deleted := (rows.map (·.idBerkas)).reverse ++ x.deleted } := by
  intro rows
  induction rows with
  | nil =>
    intro x _ _ hp
    obtain ⟨call, point, now, sub, man, del, d, u, q⟩ := x
    cases hp
    simpa using Goes.refl _
  | cons f rows ih =>
    intro x hnd hrows hp
    obtain ⟨hf, hfd, hfc⟩ := hrows f List.mem_cons_self
    rw [List.map_cons, List.nodup_cons] at hnd
    refine Goes.trans (.step fun s hs => ?_) ((ih { x with
      point := .deleting ⟨cond, rows.map (·.idBerkas)⟩
      deletedRows := x.deletedRows ++ [f.idManifest]
      deleted := f.idBerkas :: x.deleted } hnd.2 (fun g hg => ?_) rfl).trans ?_)
    · obtain ⟨s', hs', hv⟩ := hs.visit (x := x) hf hfd hfc
      exact ⟨s', hs', by simp [Txn.next, hp, hv]⟩
    · obtain ⟨hg1, hg2, hg3⟩ := hrows g (List.mem_cons_of_mem _ hg)
      refine ⟨hg1, ?_, hg3⟩
      have hne : g.idBerkas ≠ f.idBerkas := fun h => hnd.1 (h ▸ List.mem_map_of_mem hg)
      simp [hne, hg2]
    · simpa using Goes.refl _

theorem goes_updating (cond : FileRow → Bool) :
    ∀ (rows : List FileRow) (x : Txn), (∀ f ∈ rows, f ∈ db.files.rows ∧ cond f = true) →
      x.deleted = [] → x.point = .updating ⟨cond, rows.map (·.idBerkas)⟩ →
      Goes key db x { x with
        point := .updating ⟨cond, []⟩
        updated := (rows.map (·.idBerkas)).reverse ++ x.updated } := by
  intro rows
  induction rows with
  | nil =>
    intro x _ _ hp
    obtain ⟨call, point, now, sub, man, del, d, u, q⟩ := x
    cases hp
    simpa using Goes.refl _
  | cons f rows ih =>
    intro x hrows hd hp
    have hf := hrows f List.mem_cons_self
    refine Goes.trans (.step fun s hs => ?_) ((ih { x with
      point := .updating ⟨cond, rows.map (·.idBerkas)⟩
      updated := f.idBerkas :: x.updated }
      (fun g hg => hrows g (List.mem_cons_of_mem _ hg)) hd rfl).trans ?_)
    · obtain ⟨s', hs', hv⟩ := hs.visit (x := x) hf.1 (by simp [hd]) hf.2
      exact ⟨s', hs', by simp [Txn.next, hp, hv]⟩
    · simpa using Goes.refl _

theorem goes_queueing : ∀ (ids : List Hash) (x : Txn), x.point = .queueing ids →
    Goes key db x { x with
      point := .queueing []
      queued := x.queued ++ ids.filter fun id => !(x.view db).any fun f => f.refersTo id } := by
  intro ids
  induction ids with
  | nil =>
    intro x hp
    obtain ⟨call, point, now, sub, man, del, d, u, q⟩ := x
    cases hp
    simpa using Goes.refl _
  | cons id ids ih =>
    intro x hp
    by_cases href : (x.view db).any (fun f => f.refersTo id) = true
    · refine Goes.trans (.step fun s hs => ⟨s, hs, ?_⟩)
        ((ih { x with point := .queueing ids } rfl).trans ?_)
      · simp [Txn.next, hp, hs.db, href]
      · rw [List.filter_cons_of_neg (by simpa using href)]
        exact .refl _
    · have hinsert : Goes key db x { x with point := .inserting id ids } :=
        .step fun s hs => ⟨s, hs, by simp only [Txn.next, hp, hs.db, if_neg href]⟩
      have hnext : Goes key db { x with point := .inserting id ids }
          { x with point := .queueing ids, queued := x.queued ++ [id] } :=
        .step fun s hs => ⟨s, hs, by simp [Txn.next]⟩
      rw [List.filter_cons_of_pos (by simpa using href), List.append_cons]
      exact (hinsert.trans hnext).trans (ih _ rfl)

/-! ## From the first step to the commit -/

def TxnSystem.solo (c : Shared × Txn) : TxnSystem := ⟨c.1, (∅ : Dict Nat Txn).insert 0 c.2, [], []⟩

theorem reach_solo {call : TxnCall} {now : Time} {c : Shared × Txn}
    (h : Runs.Reach (soloStep key) (fun _ _ => True)
      (· = (⟨db, .free, .free⟩, .start call now)) c) :
    Runs.Reach (TxnSystem.step key) (fun _ _ => True) (· = .idle db) (.solo c) := by
  induction h with
  | init hc =>
    subst hc
    exact .next (.init rfl) trivial (a := .begin 0 call now) rfl
  | @next c c' _ _ _ hs ih =>
    refine .next ih trivial (a := .next 0) ?_
    simp only [soloStep] at hs
    split at hs
    · rename_i s x hn
      cases hs
      have hlook : (TxnSystem.solo c).txns.lookup 0 = some c.2 := AList.lookup_insert _
      simp only [TxnSystem.step, hlook, show (TxnSystem.solo c).toShared = c.1 from rfl, hn]
      simp only [TxnSystem.solo, AList.insert_insert]
    · cases hs

theorem erase_solo (c : Shared × Txn) : (TxnSystem.solo c).txns.erase 0 = ∅ :=
  AList.ext rfl

/-- A transaction alone that commits, or that finds nothing to do. -/
theorem ends_alone (call : TxnCall) (now : Time) {db' : Db} (h : Goes key db (.start call now) x)
    (hp : ∀ s, s.Alone db → (x.next key s 0 = some .commits ∧ db' = x.apply db) ∨
      (x.next key s 0 = some .rollsBack ∧ db' = db)) :
    ∃ y, Runs.Reach (TxnSystem.step key) (fun _ _ => True) (· = .idle db) y ∧ y.txns = ∅ ∧
      y.db = db' := by
  obtain ⟨s, hs, hr⟩ := h ⟨db, .free, .free⟩ ⟨rfl, fun _ => .inl rfl, fun _ => .inl rfl⟩
  have hlook : (TxnSystem.solo (s, x)).txns.lookup 0 = some x := AList.lookup_insert _
  have hshared : (TxnSystem.solo (s, x)).toShared = s := rfl
  rcases hp s hs with ⟨hn, rfl⟩ | ⟨hn, rfl⟩
  · refine ⟨{ (TxnSystem.solo (s, x)).finish 0 (x.apply s.db) with queued := x.queued ++ [] },
      .next (reach_solo hr) trivial (a := .next 0) ?_, erase_solo (s, x), congrArg x.apply hs.db⟩
    simp only [TxnSystem.step, hlook, hshared, hn]
    rfl
  · refine ⟨(TxnSystem.solo (s, x)).finish 0 s.db, .next (reach_solo hr) trivial (a := .next 0) ?_,
      erase_solo (s, x), hs.db⟩
    simp only [TxnSystem.step, hlook, hshared, hn]

/-! ## What the queue loop leaves -/

theorem queueOrdered_eq (now : Time) (ids : List Hash) (db : Db) :
    queueOrdered now db ids =
      (ids.filter fun id => !hasManifestReferences db.toMetadata id).foldl
        (fun db id => upsertRetirement db id now) db := by
  induction ids generalizing db with
  | nil => rfl
  | cons id ids ih =>
    rw [queueOrdered]
    split
    · rename_i href
      rw [ih, List.filter_cons_of_neg (by simp [href])]
    · rename_i href
      rw [ih, List.filter_cons_of_pos (by simpa using href)]
      rfl

theorem foldl_upsert_withMetadata (now : Time) (ids : List Hash) (db : Db) (m : Metadata) :
    ids.foldl (fun db id => upsertRetirement db id now) (db.withMetadata m) =
      (ids.foldl (fun db id => upsertRetirement db id now) db).withMetadata m := by
  induction ids generalizing db with
  | nil => rfl
  | cons id ids ih => exact ih (upsertRetirement db id now)

theorem key_mem_filter {files : Table FileRow.idBerkas} {cond : FileRow → Bool} {f : FileRow}
    (hf : f ∈ files.rows) :
    f.idBerkas ∈ ((files.rows.filter cond).map (·.idBerkas)).reverse ++ [] ↔ cond f = true := by
  simp only [List.append_nil, List.mem_reverse, List.mem_map, List.mem_filter]
  constructor
  · rintro ⟨g, ⟨hg, hc⟩, hk⟩
    exact Table.eq_of_key hg hf hk ▸ hc
  · exact fun hc => ⟨f, ⟨hf, hc⟩, rfl⟩

theorem deleteWhere_keys (files : Table FileRow.idBerkas) (cond : FileRow → Bool) :
    (files.deleteWhere fun f =>
      decide (f.idBerkas ∈ ((files.rows.filter cond).map (·.idBerkas)).reverse ++ [])) =
        files.deleteWhere cond := by
  refine Table.ext (List.filter_congr fun f hf => ?_)
  simp only [key_mem_filter hf, Bool.decide_eq_true]

/-! ## The deletes -/

theorem view_nil (hd : x.deleted = []) : x.view db = db.files.rows := by
  simp [Txn.view, hd]

theorem scan_alone (hs : s.Alone db) (hd : x.deleted = []) (cond : FileRow → Bool) :
    s.scan x cond = ⟨cond, (db.files.rows.filter cond).map (·.idBerkas)⟩ := by
  rw [Shared.scan, Scan.start, hs.db, view_nil hd]

section
variable (db) (call : TxnCall) (now : Time) (subtreeIDs : List Uuid)

/-- The rows that `SELECT … FOR UPDATE` and `DELETE` come to. -/
def TxnCall.found : List FileRow := db.files.rows.filter (call.finds db.toMetadata subtreeIDs)
def TxnCall.gone : List FileRow := db.files.rows.filter (call.deletes db.toMetadata subtreeIDs)

def TxnCall.deleted : Txn where
  call := call
  point := .deleting ⟨call.deletes db.toMetadata subtreeIDs, []⟩
  now := now
  subtreeIDs := subtreeIDs
  manifestRows := (call.found db subtreeIDs).map (·.idManifest)
  deletedRows := (call.gone db subtreeIDs).map (·.idManifest)
  deleted := ((call.gone db subtreeIDs).map (·.idBerkas)).reverse ++ []
  updated := []
  queued := []

def TxnCall.queued : Txn :=
  let x := call.deleted db now subtreeIDs
  { x with
    point := .queueing []
    queued := (sortedManifestIDs x.manifestIDs).filter fun id =>
      !(x.view db).any fun f => f.refersTo id }

variable {db call now subtreeIDs}

theorem goes_find :
    Goes key db ⟨call, .find, now, subtreeIDs, [], [], [], [], []⟩
      ⟨call, .finding ⟨call.finds db.toMetadata subtreeIDs, []⟩, now, subtreeIDs,
        (call.found db subtreeIDs).map (·.idManifest), [], [], [], []⟩ := by
  have hstart : Goes key db ⟨call, .find, now, subtreeIDs, [], [], [], [], []⟩
      ⟨call, .finding ⟨call.finds db.toMetadata subtreeIDs,
        (call.found db subtreeIDs).map (·.idBerkas)⟩, now, subtreeIDs, [], [], [], [], []⟩ :=
    .step fun s hs => ⟨s, hs, by simp [Txn.next, scan_alone hs, hs.db, TxnCall.found]⟩
  refine hstart.trans (goes_finding _ _ _ (fun f hf => ?_) rfl rfl)
  simpa [TxnCall.found] using hf

theorem goes_delete
    (hf : call.notFound ((call.found db subtreeIDs).map (·.idManifest)) = false) :
    Goes key db ⟨call, .find, now, subtreeIDs, [], [], [], [], []⟩
      (call.deleted db now subtreeIDs) := by
  set man := (call.found db subtreeIDs).map (·.idManifest) with hman
  have hlock : Goes key db
      ⟨call, .finding ⟨call.finds db.toMetadata subtreeIDs, []⟩, now, subtreeIDs, man, [], [], [],
        []⟩
      ⟨call, .locking (sortedManifestIDs (man.filterMap id)), now, subtreeIDs, man, [], [], [],
        []⟩ :=
    .step fun s hs => ⟨s, hs, by simp [Txn.next, hf]⟩
  have hlocked : Goes key db
      ⟨call, .locking (sortedManifestIDs (man.filterMap id)), now, subtreeIDs, man, [], [], [], []⟩
      ⟨call, .locking [], now, subtreeIDs, man, [], [], [], []⟩ :=
    goes_locks (p := .locking) (fun s x id todo hp => by simp [Txn.next, hp]) _ _ rfl
  have hdelete : Goes key db ⟨call, .locking [], now, subtreeIDs, man, [], [], [], []⟩
      ⟨call, .delete, now, subtreeIDs, man, [], [], [], []⟩ :=
    .step fun s hs => ⟨s, hs, by simp [Txn.next]⟩
  have hstart : Goes key db ⟨call, .delete, now, subtreeIDs, man, [], [], [], []⟩
      ⟨call, .deleting ⟨call.deletes db.toMetadata subtreeIDs,
        (call.gone db subtreeIDs).map (·.idBerkas)⟩, now, subtreeIDs, man, [], [], [], []⟩ :=
    .step fun s hs => ⟨s, hs, by simp [Txn.next, scan_alone hs, hs.db, TxnCall.gone]⟩
  refine (goes_find.trans hlock).trans ((hlocked.trans (hdelete.trans hstart)).trans ?_)
  refine goes_deleting _ (call.gone db subtreeIDs) _ ?_ (fun f hf => ?_) rfl
  · exact db.files.primaryKey.sublist (List.filter_sublist.map _)
  · have hf : f ∈ db.files.rows ∧ call.deletes db.toMetadata subtreeIDs f = true := by
      simpa [TxnCall.gone] using hf
    exact ⟨hf.1, by simp, hf.2⟩

theorem goes_queue
    (hf : call.notFound ((call.found db subtreeIDs).map (·.idManifest)) = false)
    (hd : call.notFound ((call.gone db subtreeIDs).map (·.idManifest)) = false) :
    Goes key db ⟨call, .find, now, subtreeIDs, [], [], [], [], []⟩
      (call.queued db now subtreeIDs) := by
  set x := call.deleted db now subtreeIDs with hx
  have hlock : Goes key db x { x with point := .queueLocking (sortedManifestIDs x.manifestIDs) } :=
    .step fun s hs => ⟨s, hs, by simp [Txn.next, hx, TxnCall.deleted, hd]⟩
  have hlocked : Goes key db { x with point := .queueLocking (sortedManifestIDs x.manifestIDs) }
      { x with point := .queueLocking [] } :=
    goes_locks (p := .queueLocking) (fun s x id todo hp => by simp [Txn.next, hp]) _ _ rfl
  have hqueue : Goes key db { x with point := .queueLocking [] }
      { x with point := .queueing (sortedManifestIDs x.manifestIDs) } :=
    .step fun s hs => ⟨s, hs, rfl⟩
  exact ((goes_delete hf).trans hlock).trans (hlocked.trans (hqueue.trans
    (goes_queueing _ { x with point := .queueing (sortedManifestIDs x.manifestIDs) } rfl)))

def TxnCall.left (db : Db) (call : TxnCall) (subtreeIDs : List Uuid) : Metadata :=
  { db.toMetadata with files := db.files.deleteWhere (call.deletes db.toMetadata subtreeIDs) }

theorem view_deleted :
    (call.deleted db now subtreeIDs).view db = (call.left db subtreeIDs).files.rows := by
  rw [TxnCall.left, ← deleteWhere_keys db.files (call.deletes db.toMetadata subtreeIDs)]
  refine List.filter_congr fun f _ => ?_
  rw [Bool.eq_iff_iff]
  simp [TxnCall.deleted, TxnCall.gone]

/-- `queueManifestRetirements` after the `DELETE`. -/
theorem queue_left (db : Db) (call : TxnCall) (now : Time) (subtreeIDs : List Uuid) :
    queueManifestRetirements (db.withMetadata (call.left db subtreeIDs))
        (call.deleted db now subtreeIDs).manifestIDs now =
      (call.queued db now subtreeIDs).queued.foldl (fun db id => upsertRetirement db id now)
        (db.withMetadata (call.left db subtreeIDs)) := by
  rw [queueManifestRetirements, queueOrdered_eq]
  simp only [TxnCall.queued, view_deleted, hasManifestReferences, Db.toMetadata_withMetadata]

end

/-- **`PermanentDelete` alone** is `permanentDeleteFile`. -/
theorem permanentDelete_alone (key : Hash → BitVec 64) (lower : String → String) (db : Db)
    (fileID userID : Uuid) (now : Time) :
    ∃ y, Runs.Reach (TxnSystem.step key) (fun _ _ => True) (· = .idle db) y ∧ y.txns = ∅ ∧
      y.db = runCall lower db userID now (.permanentDeleteFile fileID) := by
  set call : TxnCall := .permanentDelete fileID userID with hcall
  have hfound : call.found db [] = call.gone db [] := rfl
  by_cases hnil : call.gone db [] = []
  · refine ends_alone call now goes_find fun s _ => .inr ⟨?_, ?_⟩
    · have hnone : call.notFound [] = true := rfl
      simp [Txn.next, hfound.trans hnil, hnone]
    · have hrows : db.files.rows.filter (fun f =>
          db.selectsFile fileID userID f && f.dihapusPada.isSome) = [] := hnil
      simp [runCall, permanentDeleteFile, hrows]
  · have hne : call.notFound ((call.gone db []).map (·.idManifest)) = false := by
      simpa [TxnCall.notFound, hcall] using hnil
    have hcommit : Goes key db (call.queued db now [])
        { call.queued db now [] with point := .commit } :=
      .step fun s hs => ⟨s, hs, rfl⟩
    refine ends_alone call now ((goes_queue (hfound ▸ hne) hne).trans hcommit) fun s _ =>
      .inl ⟨rfl, ?_⟩
    have hrows : db.files.rows.filter (fun f =>
        db.selectsFile fileID userID f && f.dihapusPada.isSome) ≠ [] := hnil
    have hids : (call.deleted db now []).manifestIDs =
        (db.files.rows.filter fun f =>
          db.selectsFile fileID userID f && f.dihapusPada.isSome).filterMap (·.idManifest) := by
      simp only [Txn.manifestIDs, TxnCall.deleted, hcall, TxnCall.gone, List.filterMap_map]
      rfl
    have hwrite : Txn.write { call.queued db now [] with point := .commit } db.toMetadata =
        call.left db [] := by
      rw [TxnCall.left, ← deleteWhere_keys db.files (call.deletes db.toMetadata [])]
      rfl
    rw [Txn.apply, hwrite]
    simp only [runCall, permanentDeleteFile, if_neg hrows, ← hids]
    exact queue_left db call now []

/-- **`PermanentDeleteSubtree` alone** is `permanentDeleteSubtree`. -/
theorem permanentDeleteSubtree_alone (key : Hash → BitVec 64) (lower : String → String) (db : Db)
    (directoryID userID : Uuid) (now : Time) :
    ∃ y, Runs.Reach (TxnSystem.step key) (fun _ _ => True) (· = .idle db) y ∧ y.txns = ∅ ∧
      y.db = runCall lower db userID now (.permanentDeleteDirectory directoryID) := by
  set call : TxnCall := .permanentDeleteSubtree directoryID userID with hcall
  have hnf : ∀ rows, call.notFound rows = false := fun _ => rfl
  by_cases hown : db.ownsDeleted userID directoryID = true
  · have howned : Goes key db (.start call now)
        ⟨call, .querySubtree, now, [], [], [], [], [], []⟩ :=
      .step fun s hs => ⟨s, hs, by simp [Txn.next, Txn.start, hcall, TxnCall.first, hs.db, hown]⟩
    set ids := db.subtree directoryID with hids
    by_cases hnil : ids = []
    · refine ends_alone call now howned fun s hs => .inr ⟨?_, ?_⟩
      · simp [Txn.next, hcall, hs.db, ← hids, hnil]
      · simp [runCall, permanentDeleteSubtree, hown, ← hids, hnil]
    · have hsub : Goes key db ⟨call, .querySubtree, now, [], [], [], [], [], []⟩
          ⟨call, .find, now, ids, [], [], [], [], []⟩ :=
        .step fun s hs => ⟨s, hs, by simp [Txn.next, hcall, hs.db, ← hids, hnil]⟩
      have hclosure : Goes key db (call.queued db now ids)
          { call.queued db now ids with point := .deleteClosure } :=
        .step fun s hs => ⟨s, hs, rfl⟩
      have hdirs : Goes key db { call.queued db now ids with point := .deleteClosure }
          { call.queued db now ids with point := .deleteDirectories } :=
        .step fun s hs => ⟨s, hs, rfl⟩
      have hcommit : Goes key db { call.queued db now ids with point := .deleteDirectories }
          { call.queued db now ids with point := .commit } :=
        .step fun s hs => ⟨s, hs, rfl⟩
      refine ends_alone call now ((howned.trans hsub).trans ((goes_queue (hnf _) (hnf _)).trans
        (hclosure.trans (hdirs.trans hcommit)))) fun s _ => .inl ⟨rfl, ?_⟩
      have hman : (call.deleted db now ids).manifestIDs =
          (db.files.rows.filter fun f => f.within ids && f.committed).filterMap (·.idManifest) := by
        simp only [Txn.manifestIDs, TxnCall.deleted, hcall, TxnCall.found, List.filterMap_map]
        rfl
      have hwrite : Txn.write { call.queued db now ids with point := .commit } db.toMetadata =
          (call.left db ids).removeDirectories ids userID := by
        rw [TxnCall.left, ← deleteWhere_keys db.files (call.deletes db.toMetadata ids)]
        rfl
      have hremove : db.removeFiles ids = call.left db ids := rfl
      rw [Txn.apply, hwrite, foldl_upsert_withMetadata]
      simp only [runCall, permanentDeleteSubtree, hown, ← hids, if_neg hnil, ← hman, hremove,
        queue_left, Bool.not_true, Bool.false_eq_true, if_false, foldl_upsert_withMetadata]
      rfl
  · refine ends_alone call now (.refl _) fun s hs => .inr ⟨?_, ?_⟩
    · simp [Txn.next, Txn.start, hcall, TxnCall.first, hs.db, hown]
    · simp [runCall, permanentDeleteSubtree, hown]

/-- **`MarkCommitted` alone** is `markCommitted`. -/
theorem markCommitted_alone (key : Hash → BitVec 64) (db : Db) (fileID userID : Uuid)
    (result : UploadCommitResult) (now : Time) :
    ∃ y, Runs.Reach (TxnSystem.step key) (fun _ _ => True) (· = .idle db) y ∧ y.txns = ∅ ∧
      y.db = db.after (markCommitted db fileID userID result now) := by
  set call : TxnCall := .markCommitted fileID userID result with hcall
  set rows := db.files.rows.filter (selectsPending fileID userID) with hrows
  set updated := (rows.map (·.idBerkas)).reverse ++ [] with hupdated
  have hlock : Goes key db (.start call now) ⟨call, .update, now, [], [], [], [], [], []⟩ := by
    refine .step fun s hs => ?_
    obtain ⟨s', hs', hl⟩ := hs.lock key result.manifestID
    exact ⟨s', hs', by simp [Txn.next, Txn.start, hcall, TxnCall.first, hl]⟩
  have hstart : Goes key db ⟨call, .update, now, [], [], [], [], [], []⟩
      ⟨call, .updating ⟨selectsPending fileID userID, rows.map (·.idBerkas)⟩, now, [], [], [], [],
        [], []⟩ :=
    .step fun s hs => ⟨s, hs, by simp [Txn.next, hcall, scan_alone hs, hrows]⟩
  have hrun : Goes key db
      ⟨call, .updating ⟨selectsPending fileID userID, rows.map (·.idBerkas)⟩, now, [], [], [], [],
        [], []⟩
      ⟨call, .updating ⟨selectsPending fileID userID, []⟩, now, [], [], [], [], updated, []⟩ :=
    goes_updating _ rows _ (fun f hf => by simpa [hrows] using hf) rfl rfl
  have hcommit : Goes key db
      ⟨call, .updating ⟨selectsPending fileID userID, []⟩, now, [], [], [], [], updated, []⟩
      ⟨call, .commit, now, [], [], [], [], updated, []⟩ :=
    .step fun s hs => ⟨s, hs, rfl⟩
  refine ends_alone call now (hlock.trans (hstart.trans (hrun.trans hcommit))) fun s _ =>
    .inl ⟨rfl, ?_⟩
  have hcond : ∀ f ∈ db.files.rows,
      decide (f.idBerkas ∈ updated) = selectsPending fileID userID f := fun f hf => by
    rw [Bool.eq_iff_iff, decide_eq_true_eq]
    exact key_mem_filter hf
  have hfiles : (db.files.updateWhere (fun f => decide (f.idBerkas ∈ updated))
      (FileRow.commit result now) fun _ => rfl) =
        db.files.updateWhere (selectsPending fileID userID) (FileRow.commit result now)
          fun _ => rfl :=
    Table.updateWhere_congr hcond
  have happly : Txn.apply ⟨call, .commit, now, [], [], [], [], updated, []⟩ db = { db with
      files := db.files.updateWhere (selectsPending fileID userID) (FileRow.commit result now)
        fun _ => rfl } :=
    congrArg (fun files => { db with files := files }) hfiles
  rw [happly, markCommitted]
  split
  · rename_i hnone
    have hsame : (db.files.updateWhere (selectsPending fileID userID) (FileRow.commit result now)
        fun _ => rfl) = db.files :=
      Table.updateWhere_none fun f hf => by simpa using List.find?_eq_none.1 hnone f hf
    exact (congrArg (fun files => { db with files := files }) hsame).symm
  · rfl

end HashBox.Api
