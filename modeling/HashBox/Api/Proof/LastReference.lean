import HashBox.Api.Calls
import HashBox.Api.Transactions
import HashBox.Api.Proof.References

/-!
# The last reference queues a retirement

A transaction holds the lifecycle lock of every manifest whose reference it has deleted, until it
ends. So between its reference check of a manifest and its commit no other transaction takes a
reference to that manifest away, and whatever reference the check has found is still there when the
transaction commits (`Txn.Inv.frame`). `PermanentDelete` locks the manifest of the row that it has
locked before. `PermanentDeleteSubtree` locks the manifests that it has read, and its `DELETE` may
come to a row that `MarkCommitted` has committed since: the runs in which no such delete commits are
those of `DeletesRead`.
-/

namespace HashBox.Api

/-- The rows that the commit of a subtree's delete removes. -/
def Txn.subtreeRows (x : Txn) (db : Db) : List FileRow :=
  match x.call, x.point with
  | .permanentDeleteSubtree _ _, .commit =>
    db.files.rows.filter fun f => decide (f.idBerkas ∈ x.deleted)
  | _, _ => []

/-- The manifests of the committed ones among them are such as the transaction has read. -/
def Txn.DeletesRead (x : Txn) (db : Db) : Prop :=
  ∀ f ∈ x.subtreeRows db, f.committed = true → f.idManifest.isSome = true →
    f.idManifest ∈ x.manifestRows

def TxnSystem.DeletesRead (s : TxnSystem) : TxnAction → Prop
  | .next t =>
    match s.txns.lookup t with
    | none => True
    | some x => x.DeletesRead s.db
  | _ => True

instance (x : Txn) (db : Db) : Decidable (x.DeletesRead db) :=
  inferInstanceAs (Decidable (∀ f ∈ _, _ → _ → _))

instance (s : TxnSystem) : ∀ a, Decidable (s.DeletesRead a)
  | .next t =>
    show Decidable (match s.txns.lookup t with
      | none => True
      | some x => x.DeletesRead s.db) from
    match s.txns.lookup t with
    | none => .isTrue trivial
    | some _ => inferInstance
  | .begin _ _ _ | .rollback _ => .isTrue trivial

section
variable (hashtextextended : Hash → BitVec 64)

def Shared.Guards (s : Shared) (t : Nat) (manifestID : Hash) : Prop :=
  s.advisory (hashtextextended manifestID) = some t

namespace Txn

/-- The manifest is queued, or a reference to it is left. -/
def Settled (s : Shared) (x : Txn) (manifestID : Hash) : Prop :=
  manifestID ∈ x.queued ∨ ∃ g ∈ x.view s.db, g.refersTo manifestID = true

/-- The condition of a statement of `PermanentDelete` names one row; `MarkCommitted` has none. -/
def Narrow (x : Txn) (cond : FileRow → Bool) : Prop :=
  match x.call with
  | .permanentDelete fileID _ => ∀ f, cond f = true → f.idBerkas = fileID
  | .permanentDeleteSubtree _ _ => True
  | .markCommitted _ _ _ => ∀ f, cond f = false

def Read (x : Txn) (manifestID : Hash) : Prop :=
  ∀ directoryID userID, x.call = .permanentDeleteSubtree directoryID userID →
    some manifestID ∈ x.manifestRows

/-- `PermanentDelete` has locked that row and read its manifest. -/
def Found (s : Shared) (t : Nat) (x : Txn) : Prop :=
  ∀ fileID userID, x.call = .permanentDelete fileID userID →
    s.rowLocks fileID = some t ∧ ∀ f ∈ s.db.files.rows, f.idBerkas = fileID →
      ∀ id, f.refersTo id = true → some id ∈ x.manifestRows

def At (s : Shared) (t : Nat) (x : Txn) : TxnPoint → Prop
  | .checkOwned | .querySubtree | .find => x.manifestRows = [] ∧ x.deleted = []
  | .finding scan =>
    x.Narrow scan.cond ∧ (x.manifestRows ≠ [] → x.Found s t) ∧ x.deleted = []
  | .locking todo =>
    x.Found s t ∧ ∀ id, some id ∈ x.manifestRows → id ∈ todo ∨ s.Guards hashtextextended t id
  | .delete => x.Found s t ∧ ∀ id, some id ∈ x.manifestRows → s.Guards hashtextextended t id
  | .deleting scan =>
    x.Narrow scan.cond ∧ x.Found s t ∧
      ∀ id, some id ∈ x.manifestRows → s.Guards hashtextextended t id
  | .queueLocking todo => ∀ id ∈ x.manifestIDs, id ∈ todo ∨ s.Guards hashtextextended t id
  | .queueing todo =>
    ∀ id ∈ x.manifestIDs, s.Guards hashtextextended t id ∧ (id ∈ todo ∨ x.Settled s id)
  | .inserting k todo =>
    ∀ id ∈ x.manifestIDs, s.Guards hashtextextended t id ∧ (id = k ∨ id ∈ todo ∨ x.Settled s id)
  | .deleteClosure | .deleteDirectories | .commit =>
    ∀ id ∈ x.manifestIDs, s.Guards hashtextextended t id ∧ x.Settled s id
  | .lockLifecycle | .update => True
  | .updating scan =>
    x.manifestIDs = [] ∧ ∀ f, scan.cond f = true → f.statusPenyimpanan = .pending

structure Inv (s : Shared) (t : Nat) (x : Txn) : Prop where
  locked : ∀ id, id ∈ x.deleted ∨ id ∈ x.updated → s.rowLocks id = some t
  removes : ∀ f ∈ s.db.files.rows, f.idBerkas ∈ x.deleted → ∀ id, f.refersTo id = true →
    x.Read id → s.Guards hashtextextended t id ∧ id ∈ x.manifestIDs
  updates : ∀ f ∈ s.db.files.rows, f.idBerkas ∈ x.updated → f.statusPenyimpanan = .pending
  reached : x.At hashtextextended s t x.point

end Txn

/-- What a transaction can rely on while the others go on: its locks, the rows that it has locked,
the references to the manifests that it guards. -/
structure Shared.Frame (s s' : Shared) (t : Nat) : Prop where
  rowLocks : ∀ id, s.rowLocks id = some t → s'.rowLocks id = some t
  advisory : ∀ id, s.Guards hashtextextended t id → s'.Guards hashtextextended t id
  rows : ∀ f ∈ s'.db.files.rows, s.rowLocks f.idBerkas = some t → f ∈ s.db.files.rows
  refs : ∀ id, s.Guards hashtextextended t id → ∀ g ∈ s.db.files.rows, g.refersTo id = true →
    g ∈ s'.db.files.rows

end

variable {key : Hash → BitVec 64} {s s' : Shared} {t t' : Nat} {x x' : Txn}

namespace Txn

theorem mem_view {db : Db} {f : FileRow} :
    f ∈ x.view db ↔ f ∈ db.files.rows ∧ f.idBerkas ∉ x.deleted := by
  simp [view]

theorem Settled.frame (hf : s.Frame key s' t) {id : Hash} (hg : s.Guards key t id)
    (h : x.Settled s id) : x.Settled s' id := by
  refine h.imp_right ?_
  rintro ⟨g, hgm, hid⟩
  rw [mem_view] at hgm
  exact ⟨g, mem_view.2 ⟨hf.refs id hg g hgm.1 hid, hgm.2⟩, hid⟩

theorem Found.frame (hf : s.Frame key s' t) (h : x.Found s t) : x.Found s' t := by
  intro fileID userID hc
  obtain ⟨hl, hrows⟩ := h fileID userID hc
  refine ⟨hf.rowLocks fileID hl, fun f hmem hid => hrows f ?_ hid⟩
  exact hf.rows f hmem (hid ▸ hl)

theorem At.frame (hf : s.Frame key s' t) {p : TxnPoint} (h : x.At key s t p) : x.At key s' t p := by
  have hset : ∀ id, s.Guards key t id ∧ x.Settled s id → s'.Guards key t id ∧ x.Settled s' id :=
    fun id h => ⟨hf.advisory id h.1, h.2.frame hf h.1⟩
  cases p with
  | checkOwned | querySubtree | find => exact h
  | finding scan => exact ⟨h.1, fun hne => (h.2.1 hne).frame hf, h.2.2⟩
  | locking todo => exact ⟨h.1.frame hf, fun id hid => (h.2 id hid).imp_right (hf.advisory id)⟩
  | delete => exact ⟨h.1.frame hf, fun id hid => hf.advisory id (h.2 id hid)⟩
  | deleting scan => exact ⟨h.1, h.2.1.frame hf, fun id hid => hf.advisory id (h.2.2 id hid)⟩
  | queueLocking todo => exact fun id hid => (h id hid).imp_right (hf.advisory id)
  | queueing todo =>
    intro id hid
    obtain ⟨hg, hs⟩ := h id hid
    exact ⟨hf.advisory id hg, hs.imp_right fun hs => hs.frame hf hg⟩
  | inserting k todo =>
    intro id hid
    obtain ⟨hg, hs⟩ := h id hid
    exact ⟨hf.advisory id hg, hs.imp_right fun hs => hs.imp_right fun hs => hs.frame hf hg⟩
  | deleteClosure | deleteDirectories | commit => exact fun id hid => hset id (h id hid)
  | lockLifecycle | update => trivial
  | updating scan => exact h

theorem Inv.frame (hi : x.Inv key s t) (hf : s.Frame key s' t) : x.Inv key s' t where
  locked := fun id hid => hf.rowLocks id (hi.locked id hid)
  removes := fun f hmem hdel id hid hread => by
    have hrow := hf.rows f hmem (hi.locked _ (.inl hdel))
    obtain ⟨hg, hids⟩ := hi.removes f hrow hdel id hid hread
    exact ⟨hf.advisory id hg, hids⟩
  updates := fun f hmem hup => hi.updates f (hf.rows f hmem (hi.locked _ (.inr hup))) hup
  reached := hi.reached.frame hf

theorem Inv.goto (hi : x.Inv key s t) {p : TxnPoint} (hp : x.At key s t p) :
    Inv key s t { x with point := p } :=
  ⟨hi.locked, hi.removes, hi.updates, hp⟩

end Txn

/-! ## Locks -/

theorem Shared.Frame.of_db (hdb : s'.db = s.db)
    (hr : ∀ id, s.rowLocks id = some t → s'.rowLocks id = some t)
    (ha : ∀ k, s.advisory k = some t → s'.advisory k = some t) : s.Frame key s' t where
  rowLocks := hr
  advisory := fun id => ha (key id)
  rows := fun _ hf _ => hdb ▸ hf
  refs := fun _ _ _ hg _ => hdb ▸ hg

theorem Shared.lockLifecycle_ok {id : Hash} (h : s.lockLifecycle key t id = some s') :
    s'.db = s.db ∧ (∀ t', s.Frame key s' t') ∧ s'.Guards key t id := by
  obtain ⟨advisory, ha, rfl⟩ := Option.map_eq_some_iff.1 h
  exact ⟨rfl, fun t' => .of_db rfl (fun _ hk => hk) fun _ hk => Locks.acquire_keeps ha hk,
    Locks.acquire_owner ha⟩

/-- The manifest that is locked is guarded; the others that are guarded stay so. -/
theorem Shared.lockLifecycle_guards {id k : Hash} {todo : List Hash}
    (h : s.lockLifecycle key t k = some s') (hid : id ∈ k :: todo ∨ s.Guards key t id) :
    id ∈ todo ∨ s'.Guards key t id := by
  obtain ⟨-, hframe, hg⟩ := lockLifecycle_ok h
  rcases hid with hmem | hid
  · rcases List.mem_cons.1 hmem with rfl | hmem
    · exact .inr hg
    · exact .inl hmem
  · exact .inr ((hframe t).advisory id hid)

theorem Shared.visit_ok (key : Hash → BitVec 64) {cond : FileRow → Bool} {id : Uuid}
    {row : Option FileRow} (h : s.visit t x cond id = some (s', row)) :
    s'.db = s.db ∧ (∀ t', s.Frame key s' t') ∧
      ∀ f, row = some f →
        f ∈ x.view s.db ∧ f.idBerkas = id ∧ cond f = true ∧ s'.rowLocks id = some t := by
  obtain ⟨⟨rowLocks, row'⟩, hv, he⟩ := Option.map_eq_some_iff.1 h
  cases he
  refine ⟨rfl, fun t' => .of_db rfl (fun _ hk => Scan.visit_keeps hv hk) fun _ hk => hk, ?_⟩
  rintro f rfl
  exact Scan.visit_row hv

/-! ## A step of the transaction itself -/

namespace Txn

theorem mem_manifestIDs {id : Hash} :
    id ∈ x.manifestIDs ↔
      (∃ fileID userID, x.call = .permanentDelete fileID userID ∧ some id ∈ x.deletedRows) ∨
        (∃ directoryID userID, x.call = .permanentDeleteSubtree directoryID userID ∧
          some id ∈ x.manifestRows) := by
  unfold manifestIDs
  split <;> simp_all

theorem manifestIDs_mono {id : Hash} (h : id ∈ x.manifestIDs) (hc : x'.call = x.call)
    (hd : ∀ r ∈ x.deletedRows, r ∈ x'.deletedRows)
    (hm : ∀ r ∈ x.manifestRows, r ∈ x'.manifestRows) : id ∈ x'.manifestIDs := by
  rw [mem_manifestIDs, hc]
  rcases mem_manifestIDs.1 h with ⟨a, b, hcall, hid⟩ | ⟨a, b, hcall, hid⟩
  · exact .inl ⟨a, b, hcall, hd _ hid⟩
  · exact .inr ⟨a, b, hcall, hm _ hid⟩

theorem narrow_finds (m : Metadata) (ids : List Uuid) : x.Narrow (x.call.finds m ids) := by
  unfold Narrow
  split
  · rename_i fileID userID hc
    intro f hf
    rw [hc, TxnCall.finds, Bool.and_eq_true] at hf
    exact (selectsFile_iff.1 hf.1).1
  · trivial
  · rename_i hc
    intro f
    rw [hc, TxnCall.finds]

theorem narrow_deletes (m : Metadata) (ids : List Uuid) : x.Narrow (x.call.deletes m ids) := by
  unfold Narrow
  split
  · rename_i fileID userID hc
    intro f hf
    rw [hc, TxnCall.deletes, Bool.and_eq_true] at hf
    exact (selectsFile_iff.1 hf.1).1
  · trivial
  · rename_i hc
    intro f
    rw [hc, TxnCall.deletes]

/-- The row that `SELECT … FOR UPDATE` comes to. -/
theorem Inv.find (hi : x.Inv key s t) {cond : FileRow → Bool} {fileID : Uuid} {todo : List Uuid}
    {row : Option FileRow} (hp : x.point = .finding ⟨cond, fileID :: todo⟩)
    (h : s.visit t x cond fileID = some (s', row)) :
    Inv key s' t { x with
      point := .finding ⟨cond, todo⟩
      manifestRows := x.manifestRows ++ (row.map (·.idManifest)).toList } := by
  obtain ⟨hdb, hframe, hrow⟩ := Shared.visit_ok key h
  have hi' := hi.frame (hframe t)
  have hat := hi'.reached
  rw [hp] at hat
  obtain ⟨hnarrow, hfound, hnone⟩ := hat
  refine ⟨hi'.locked, fun f hmem hdel => ?_, hi'.updates, hnarrow, fun hne a b hc => ?_, hnone⟩
  · rw [show x.deleted = [] from hnone] at hdel
    cases hdel
  cases row with
  | none =>
    obtain ⟨hl, hrows⟩ := hfound (by simpa using hne) a b hc
    exact ⟨hl, fun f hmem hid k hk => List.mem_append_left _ (hrows f hmem hid k hk)⟩
  | some f =>
    obtain ⟨hmem, hid, hcond, hlock⟩ := hrow f rfl
    have hc : x.call = .permanentDelete a b := hc
    simp only [Narrow, hc] at hnarrow
    have hfa : f.idBerkas = a := hnarrow f hcond
    refine ⟨hfa ▸ hid ▸ hlock, fun g hg hga k hk => ?_⟩
    -- the row that was found is the only one with its key
    have hgf : g = f := by
      refine Table.eq_of_key (hdb ▸ hg) (mem_view.1 hmem).1 (hga.trans hfa.symm)
    subst hgf
    simp only [FileRow.refersTo, Bool.and_eq_true, decide_eq_true_eq] at hk
    simp [hk.1]

/-- The row that `DELETE` comes to and removes. -/
theorem Inv.delete (hi : x.Inv key s t) {cond : FileRow → Bool} {fileID : Uuid} {todo : List Uuid}
    {f : FileRow} (hp : x.point = .deleting ⟨cond, fileID :: todo⟩)
    (h : s.visit t x cond fileID = some (s', some f)) :
    Inv key s' t { x with
      point := .deleting ⟨cond, todo⟩
      deletedRows := x.deletedRows ++ [f.idManifest]
      deleted := fileID :: x.deleted } := by
  obtain ⟨hdb, hframe, hrow⟩ := Shared.visit_ok key h
  obtain ⟨hmem, hid, hcond, hlock⟩ := hrow f rfl
  have hi' := hi.frame (hframe t)
  have hat := hi'.reached
  rw [hp] at hat
  obtain ⟨hnarrow, hfound, hguards⟩ := hat
  refine ⟨fun k hk => ?_, fun g hg hdel k hk hread => ?_, hi'.updates, hnarrow, hfound, hguards⟩
  · simp only [List.mem_cons, or_assoc] at hk
    rcases hk with rfl | hk
    · exact hlock
    · exact hi'.locked k hk
  · rcases List.mem_cons.1 hdel with hgid | hdel
    · have hgf : g = f :=
        Table.eq_of_key (hdb ▸ hg) (mem_view.1 hmem).1 (hgid.trans hid.symm)
      subst hgf
      have hman : g.idManifest = some k ∧ g.committed = true := by
        simpa [FileRow.refersTo] using hk
      -- its manifest is among those that the transaction has locked
      cases hc : x.call with
      | permanentDelete a b =>
        simp only [Narrow, hc] at hnarrow
        have hread := (hfound a b hc).2 g hg (hnarrow g hcond) k hk
        refine ⟨hguards k hread, mem_manifestIDs.2 (.inl ⟨a, b, rfl, ?_⟩)⟩
        simp [hman.1]
      | permanentDeleteSubtree a b =>
        have hread : some k ∈ x.manifestRows := hread a b hc
        exact ⟨hguards k hread, mem_manifestIDs.2 (.inr ⟨a, b, rfl, hread⟩)⟩
      | markCommitted a b result =>
        simp only [Narrow, hc] at hnarrow
        rw [hnarrow g] at hcond
        cases hcond
    · obtain ⟨hgk, hids⟩ := hi'.removes g hg hdel k hk hread
      refine ⟨hgk, manifestIDs_mono hids ?_ ?_ ?_⟩
      · rfl
      · exact fun _ h => List.mem_append_left _ h
      · exact fun _ h => h

/-- A manifest with a reference is passed over, one without goes to the insert. -/
theorem Inv.check (hi : x.Inv key s t) {k : Hash} {todo : List Hash}
    (hp : x.point = .queueing (k :: todo)) :
    Inv key s t { x with
      point := if (x.view s.db).any (fun f => f.refersTo k) then .queueing todo
        else .inserting k todo } := by
  have hat := hi.reached
  rw [hp] at hat
  refine hi.goto ?_
  by_cases href : (x.view s.db).any (fun f => f.refersTo k) = true
  · rw [if_pos href]
    refine fun id hid => ⟨(hat id hid).1, ?_⟩
    rcases (hat id hid).2 with hmem | hs
    · rcases List.mem_cons.1 hmem with rfl | hmem
      · obtain ⟨g, hg, hgid⟩ := List.any_eq_true.1 href
        exact .inr (.inr ⟨g, hg, hgid⟩)
      · exact .inl hmem
    · exact .inr hs
  · rw [if_neg href]
    refine fun id hid => ⟨(hat id hid).1, ?_⟩
    rw [← or_assoc, ← List.mem_cons]
    exact (hat id hid).2

theorem Inv.insert (hi : x.Inv key s t) {k : Hash} {todo : List Hash}
    (hp : x.point = .inserting k todo) :
    Inv key s t { x with point := .queueing todo, queued := x.queued ++ [k] } := by
  have hat := hi.reached
  rw [hp] at hat
  refine ⟨hi.locked, hi.removes, hi.updates, fun id hid => ⟨(hat id hid).1, ?_⟩⟩
  rcases (hat id hid).2 with rfl | hmem | hq | hg
  · exact .inr (.inl (by simp))
  · exact .inl hmem
  · exact .inr (.inl (List.mem_append_left _ hq))
  · exact .inr (.inr hg)

/-- The row that `UPDATE` comes to. -/
theorem Inv.update (hi : x.Inv key s t) {cond : FileRow → Bool} {fileID : Uuid} {todo : List Uuid}
    {row : Option FileRow} (hp : x.point = .updating ⟨cond, fileID :: todo⟩)
    (h : s.visit t x cond fileID = some (s', row)) :
    Inv key s' t { x with
      point := .updating ⟨cond, todo⟩
      updated := row.toList.map (·.idBerkas) ++ x.updated } := by
  obtain ⟨hdb, hframe, hrow⟩ := Shared.visit_ok key h
  have hi' := hi.frame (hframe t)
  have hat := hi'.reached
  rw [hp] at hat
  cases row with
  | none => exact ⟨hi'.locked, hi'.removes, hi'.updates, hat⟩
  | some f =>
    obtain ⟨hmem, hid, hcond, hlock⟩ := hrow f rfl
    have hmem := (mem_view.1 hmem).1
    refine ⟨fun k hk => ?_, hi'.removes, fun g hg hup => ?_, hat⟩
    · simp only [Option.toList_some, List.map_cons, List.map_nil, List.mem_append,
        List.mem_singleton] at hk
      rcases hk with hk | rfl | hk
      · exact hi'.locked k (.inl hk)
      · exact hid ▸ hlock
      · exact hi'.locked k (.inr hk)
    · simp only [Option.toList_some, List.map_cons, List.map_nil, List.mem_append,
        List.mem_singleton] at hup
      rcases hup with hup | hup
      · have hgf : g = f := Table.eq_of_key (hdb ▸ hg) hmem hup
        subst hgf
        exact hat.2 g hcond
      · exact hi'.updates g hg hup

/-- **What a step keeps of the transaction that takes it.** -/
theorem Inv.next (hi : x.Inv key s t) (h : x.next key s t = some (.goes s' x')) :
    s'.db = s.db ∧ (∀ t', s.Frame key s' t') ∧ x'.Inv key s' t := by
  have stay : ∀ {y : Txn}, y.Inv key s t →
      s.db = s.db ∧ (∀ t', s.Frame key s t') ∧ y.Inv key s t := fun hy =>
    ⟨rfl, fun t' => .of_db rfl (fun _ h => h) fun _ h => h, hy⟩
  have hat := hi.reached
  unfold Txn.next at h
  split at h <;> rename_i hp <;> rw [hp] at hat
  · -- checkOwned
    split at h
    · simp only [Option.some.injEq] at h
      split at h
      · cases h
        exact stay (hi.goto hat)
      · cases h
    · cases h
  · -- querySubtree
    split at h
    · simp only [Option.some.injEq] at h
      split at h
      · cases h
      · cases h
        exact stay ⟨hi.locked, hi.removes, hi.updates, hat⟩
    · cases h
  · -- find
    cases h
    exact stay (hi.goto ⟨narrow_finds _ _, fun hne => absurd hat.1 hne, hat.2⟩)
  · -- finding, at its end
    simp only [Option.some.injEq] at h
    split at h
    · cases h
    · rename_i hne
      cases h
      refine stay (hi.goto ⟨fun a b hc => hat.2.1 ?_ a b hc, fun id hid => .inl ?_⟩)
      · simpa [TxnCall.notFound, show x.call = _ from hc] using hne
      · exact mem_sortedManifestIDs.2 (List.mem_filterMap.2 ⟨_, hid, rfl⟩)
  · -- finding, at a row
    obtain ⟨⟨s1, row⟩, hv, he⟩ := Option.map_eq_some_iff.1 h
    cases he
    obtain ⟨hdb, hframe, -⟩ := Shared.visit_ok key hv
    exact ⟨hdb, hframe, hi.find hp hv⟩
  · -- locking, at its end
    cases h
    exact stay (hi.goto ⟨hat.1, fun id hid => (hat.2 id hid).resolve_left (by simp)⟩)
  · -- locking
    obtain ⟨s1, hl, he⟩ := Option.map_eq_some_iff.1 h
    cases he
    obtain ⟨hdb, hframe, -⟩ := Shared.lockLifecycle_ok hl
    exact ⟨hdb, hframe, (hi.frame (hframe t)).goto ⟨hat.1.frame (hframe t), fun id hid =>
      Shared.lockLifecycle_guards hl (hat.2 id hid)⟩⟩
  · -- delete
    cases h
    exact stay (hi.goto ⟨narrow_deletes _ _, hat⟩)
  · -- deleting, at its end
    simp only [Option.some.injEq] at h
    split at h
    · cases h
    · cases h
      exact stay (hi.goto fun id hid => .inl (mem_sortedManifestIDs.2 hid))
  · -- deleting, at a row
    obtain ⟨⟨s1, row⟩, hv, he⟩ := Option.map_eq_some_iff.1 h
    obtain ⟨hdb, hframe, -⟩ := Shared.visit_ok key hv
    cases row with
    | none =>
      simp only [Progress.goes.injEq] at he
      obtain ⟨rfl, rfl⟩ := he
      have hat' := (hi.frame (hframe t)).reached
      rw [hp] at hat'
      exact ⟨hdb, hframe, (hi.frame (hframe t)).goto hat'⟩
    | some f =>
      simp only [Progress.goes.injEq] at he
      obtain ⟨rfl, rfl⟩ := he
      exact ⟨hdb, hframe, hi.delete hp hv⟩
  · -- queueLocking, at its end
    cases h
    exact stay (hi.goto fun id hid =>
      ⟨(hat id hid).resolve_left (by simp), .inl (mem_sortedManifestIDs.2 hid)⟩)
  · -- queueLocking
    obtain ⟨s1, hl, he⟩ := Option.map_eq_some_iff.1 h
    cases he
    obtain ⟨hdb, hframe, -⟩ := Shared.lockLifecycle_ok hl
    exact ⟨hdb, hframe, (hi.frame (hframe t)).goto fun id hid =>
      Shared.lockLifecycle_guards hl (hat id hid)⟩
  · -- queueing, at its end
    have hdone : ∀ id ∈ x.manifestIDs, s.Guards key t id ∧ x.Settled s id := fun id hid =>
      ⟨(hat id hid).1, (hat id hid).2.resolve_left (by simp)⟩
    split at h <;> cases h <;> exact stay (hi.goto hdone)
  · -- queueing
    cases h
    exact stay (hi.check hp)
  · -- inserting
    cases h
    exact stay (hi.insert hp)
  · -- deleteClosure
    cases h
    exact stay (hi.goto hat)
  · -- deleteDirectories
    cases h
    exact stay (hi.goto hat)
  · -- lockLifecycle
    split at h
    · obtain ⟨s1, hl, he⟩ := Option.map_eq_some_iff.1 h
      cases he
      obtain ⟨hdb, hframe, -⟩ := Shared.lockLifecycle_ok hl
      exact ⟨hdb, hframe, (hi.frame (hframe t)).goto trivial⟩
    · cases h
  · -- update
    split at h
    · rename_i fileID userID result hc
      cases h
      refine stay (hi.goto ⟨by simp [manifestIDs, hc], fun f hf => ?_⟩)
      exact (selectsPending_iff.1 hf).2.2
    · cases h
  · -- updating, at its end
    cases h
    refine stay (hi.goto fun id hid => ?_)
    rw [show x.manifestIDs = [] from hat.1] at hid
    cases hid
  · -- updating, at a row
    obtain ⟨⟨s1, row⟩, hv, he⟩ := Option.map_eq_some_iff.1 h
    cases he
    obtain ⟨hdb, hframe, -⟩ := Shared.visit_ok key hv
    exact ⟨hdb, hframe, hi.update hp hv⟩
  · cases h

theorem next_commits (h : x.next key s t = some .commits) : x.point = .commit := by
  unfold Txn.next at h
  split at h <;> rename_i hp
  all_goals first
    | exact hp
    | cases h
    | grind [Option.map_eq_some_iff]

/-! ## Commits -/

theorem apply_metadata (x : Txn) (db : Db) : (x.apply db).toMetadata = x.write db.toMetadata := by
  unfold apply
  generalize x.queued = ids
  have hkeep : ∀ (ids : List Hash) (db : Db),
      (ids.foldl (fun db manifestID => upsertRetirement db manifestID x.now) db).toMetadata =
        db.toMetadata := by
    intro ids
    induction ids with
    | nil => exact fun _ => rfl
    | cons id ids ih => exact fun db => ih (upsertRetirement db id x.now)
  rw [hkeep, Db.toMetadata_withMetadata]

/-- A commit brings no row but those it has updated. -/
theorem mem_apply {db : Db} {f : FileRow} (h : f ∈ (x.apply db).files.rows) :
    f ∈ db.files.rows ∨ f.idBerkas ∈ x.updated := by
  rw [apply_metadata] at h
  unfold write at h
  split at h
  · exact .inl (Table.mem_deleteWhere.1 h).1
  · exact .inl (Table.mem_deleteWhere.1 h).1
  · rcases Table.mem_updateRows.1 h with ⟨r, hr, hp, rfl⟩ | ⟨hf, -⟩
    · rw [decide_eq_true_eq] at hp
      exact .inr hp
    · exact .inl hf

theorem mem_apply_of {db : Db} {f : FileRow} (h : f ∈ db.files.rows) (hd : f.idBerkas ∉ x.deleted)
    (hu : f.idBerkas ∉ x.updated) : f ∈ (x.apply db).files.rows := by
  rw [apply_metadata]
  unfold write
  split
  · exact Table.mem_deleteWhere.2 ⟨h, by simpa using hd⟩
  · exact Table.mem_deleteWhere.2 ⟨h, by simpa using hd⟩
  · exact Table.mem_updateRows.2 (.inr ⟨h, by simpa using hu⟩)

/-- A reference that the transaction has not deleted is left by its commit. -/
theorem Inv.leaves (hi : x.Inv key s t) {g : FileRow} {id : Hash} (hg : g ∈ s.db.files.rows)
    (hid : g.refersTo id = true) (hd : g.idBerkas ∉ x.deleted) :
    g ∈ (x.apply s.db).files.rows := by
  refine mem_apply_of hg hd fun hu => ?_
  rw [refersTo_of_pending (hi.updates g hg hu)] at hid
  cases hid

/-- What the commit removes has been read, and is guarded. -/
theorem Inv.removed (hi : x.Inv key s t) (hp : x.point = .commit) (hread : x.DeletesRead s.db)
    {f : FileRow} (hf : f ∈ s.db.files.rows) (hd : f.idBerkas ∈ x.deleted) {id : Hash}
    (hid : f.refersTo id = true) : s.Guards key t id ∧ id ∈ x.manifestIDs := by
  refine hi.removes f hf hd id hid fun directoryID userID hc => ?_
  have hman : f.idManifest = some id ∧ f.committed = true := by
    simpa [FileRow.refersTo] using hid
  rw [← hman.1]
  refine hread f ?_ hman.2 (by simp [hman.1])
  simp only [subtreeRows, hc, hp]
  exact List.mem_filter.2 ⟨hf, decide_eq_true hd⟩

/-- What has lost its last reference by the commit is queued. -/
theorem Inv.commit (hi : x.Inv key s t) (hp : x.point = .commit) (hread : x.DeletesRead s.db)
    {id : Hash} (href : hasManifestReferences s.db.toMetadata id = true) :
    hasManifestReferences (x.apply s.db).toMetadata id = true ∨ id ∈ x.queued := by
  have hat := hi.reached
  rw [hp] at hat
  obtain ⟨f, hf, hid⟩ := hasManifestReferences_iff.1 href
  by_cases hd : f.idBerkas ∈ x.deleted
  · rcases (hat id (hi.removed hp hread hf hd hid).2).2 with hq | ⟨g, hg, hgid⟩
    · exact .inr hq
    · rw [mem_view] at hg
      exact .inl (hasManifestReferences_iff.2 ⟨g, hi.leaves hg.1 hgid hg.2, hgid⟩)
  · exact .inl (hasManifestReferences_iff.2 ⟨f, hi.leaves hf hid hd, hid⟩)

theorem pending_apply {db : Db} {id : Hash} :
    (x.apply db).retirementPending id = true ↔ db.retirementPending id = true ∨ id ∈ x.queued := by
  unfold apply
  have hm : (db.withMetadata (x.write db.toMetadata)).retirementPending id =
      db.retirementPending id := rfl
  rw [← hm]
  generalize db.withMetadata (x.write db.toMetadata) = db
  generalize x.queued = ids
  induction ids generalizing db with
  | nil => simp
  | cons k ids ih =>
    rw [List.foldl_cons, List.mem_cons, ← or_assoc, ← pending_upsert db k x.now]
    exact ih _

end Txn

namespace TxnSystem

variable {s s' : TxnSystem}

structure Inv (key : Hash → BitVec 64) (s : TxnSystem) : Prop where
  txns : ∀ t x, s.txns.lookup t = some x → x.Inv key s.toShared t
  kept : ∀ id ∈ s.removed, hasManifestReferences s.db.toMetadata id = true ∨ id ∈ s.queued
  pending : ∀ id ∈ s.queued, s.db.retirementPending id = true

theorem Inv.idle (db : Db) : (idle db).Inv key where
  txns := fun t x h => by cases h
  kept := fun id h => by cases h
  pending := fun id h => by cases h

/-- The end of a transaction, for the others. -/
theorem frame_commit (hi : x.Inv key s.toShared t) (hp : x.point = .commit)
    (hread : x.DeletesRead s.db) (ht : t' ≠ t) :
    s.toShared.Frame key (s.finish t (x.apply s.db)).toShared t' where
  rowLocks := fun _ h => Locks.release_other h ht
  advisory := fun _ h => Locks.release_other h ht
  rows := fun f hf hl => (Txn.mem_apply hf).resolve_right fun hu => by
    have hlock := hi.locked _ (.inr hu)
    rw [hl] at hlock
    exact ht (Option.some.inj hlock)
  refs := fun id hg g hmem hid => hi.leaves hmem hid fun hd => by
    have hguard : s.advisory (key id) = some t := (hi.removed hp hread hmem hd hid).1
    rw [show s.advisory (key id) = some t' from hg] at hguard
    exact ht (Option.some.inj hguard)

theorem frame_rollback (ht : t' ≠ t) : s.toShared.Frame key (s.finish t s.db).toShared t' :=
  .of_db rfl (fun _ h => Locks.release_other h ht) fun _ h => Locks.release_other h ht

theorem removedManifests_self (m : Metadata) : removedManifests m m = [] := by
  simp only [removedManifests, List.filterMap_eq_nil_iff, List.mem_filter, Bool.and_eq_true,
    decide_eq_true_eq]
  rintro f ⟨hf, -, hno⟩
  exact absurd (List.mem_map_of_mem hf) hno

theorem Inv.rollback (hi : s.Inv key) (t : Nat) : (s.finish t s.db).Inv key where
  txns := fun t' x h => by
    rw [show (s.finish t s.db).txns = s.txns.erase t from rfl, Dict.lookup_erase_if] at h
    split at h
    · cases h
    · rename_i hne
      exact (hi.txns t' x h).frame (frame_rollback hne)
  kept := fun id hid => by
    simp only [finish, removedManifests_self, List.nil_append] at hid
    exact hi.kept id hid
  pending := hi.pending

theorem Inv.commit (hi : s.Inv key) (hx : s.txns.lookup t = some x) (hp : x.point = .commit)
    (hread : x.DeletesRead s.db) :
    Inv key { s.finish t (x.apply s.db) with queued := x.queued ++ s.queued } where
  txns := fun t' x' h => by
    simp only [finish, Dict.lookup_erase_if] at h
    split at h
    · cases h
    · rename_i hne
      exact (hi.txns t' x' h).frame (frame_commit (hi.txns t x hx) hp hread hne)
  kept := fun id hid => by
    have hcommit : hasManifestReferences s.db.toMetadata id = true → _ :=
      (hi.txns t x hx).commit hp hread
    rcases List.mem_append.1 hid with hid | hid
    · exact (hcommit (mem_removedManifests hid)).imp_right (List.mem_append_left _)
    · rcases hi.kept id hid with href | hq
      · exact (hcommit href).imp_right (List.mem_append_left _)
      · exact .inr (List.mem_append_right _ hq)
  pending := fun id hid => by
    show (x.apply s.db).retirementPending id = true
    rw [Txn.pending_apply]
    rcases List.mem_append.1 hid with hid | hid
    · exact .inr hid
    · exact .inl (hi.pending id hid)

theorem Txn.Inv.start (s : Shared) (call : TxnCall) (now : Time) :
    (Txn.start call now).Inv key s t where
  locked := fun id h => by simp [Txn.start] at h
  removes := fun f _ h => by simp [Txn.start] at h
  updates := fun f _ h => by simp [Txn.start] at h
  reached := by cases call <;> trivial

theorem Inv.step (hi : s.Inv key) {a : TxnAction} (hread : s.DeletesRead a)
    (h : step key s a = some s') : s'.Inv key := by
  cases a with
  | begin t call now =>
    simp only [TxnSystem.step] at h
    split at h
    · cases h
    · cases h
      refine ⟨fun t' x hx => ?_, hi.kept, hi.pending⟩
      rcases Dict.lookup_insert_cases hx with ⟨-, rfl⟩ | ⟨-, hx⟩
      · exact Txn.Inv.start ..
      · exact hi.txns t' x hx
  | next t =>
    simp only [TxnSystem.step] at h
    split at h
    · cases h
    · rename_i x hx
      simp only [DeletesRead, hx] at hread
      split at h
      · cases h
      · rename_i s1 x1 hnext
        cases h
        obtain ⟨hdb, hframe, hx1⟩ := (hi.txns t x hx).next hnext
        refine ⟨fun t' y hy => ?_, fun id hid => ?_, fun id hid => ?_⟩
        · rcases Dict.lookup_insert_cases hy with ⟨ht, rfl⟩ | ⟨-, hy⟩
          · exact ht ▸ hx1
          · exact (hi.txns t' y hy).frame (hframe t')
        · exact hdb ▸ hi.kept id hid
        · exact hdb ▸ hi.pending id hid
      · rename_i hnext
        cases h
        exact hi.commit hx (Txn.next_commits hnext) hread
      · cases h
        exact hi.rollback t
  | rollback t =>
    simp only [TxnSystem.step] at h
    split at h
    · cases h
      exact hi.rollback t
    · cases h

end TxnSystem

/-- **A manifest that has lost its last reference is queued by one of the transactions**, in the
runs whose subtree deletes commit the removal only of what they have read. -/
theorem last_reference_queued (hashtextextended : Hash → BitVec 64) {db : Db} {s : TxnSystem}
    (h : Runs.Reach (TxnSystem.step hashtextextended) TxnSystem.DeletesRead (· = .idle db) s) :
    ∀ manifestID ∈ s.removed, hasManifestReferences s.db.toMetadata manifestID = false →
      manifestID ∈ s.queued ∧ s.db.retirementPending manifestID = true := by
  have hi : s.Inv hashtextextended :=
    h.inv (fun _ hs => hs ▸ .idle db) fun _ _ _ hi hok hs => hi.step hok hs
  intro id hid hno
  have hq : id ∈ s.queued := (hi.kept id hid).resolve_left (by simp [hno])
  exact ⟨hq, hi.pending id hq⟩

/-! ## Runs -/

namespace TxnSystem

def sampleResult : UploadCommitResult := ⟨2, 2, 1, 1, 0, true, 1, 0⟩

/-- Two files of the same content in trash. -/
def sampleFiles : List (Event × Time) :=
  [(.call 1 (.uploadStart none "a" "" 20), 1), (.call 1 (.uploadFinish 20 (.ok sampleResult)), 2),
    (.call 1 (.uploadStart none "b" "" 21), 3), (.call 1 (.uploadFinish 21 (.ok sampleResult)), 4),
    (.call 1 (.softDeleteFile 20), 5), (.call 1 (.softDeleteFile 21), 6)]

/-- Both are deleted for good: each transaction has found its row before one of them commits. -/
def sampleDeletes : List TxnAction :=
  [.begin 0 (.permanentDelete 20 1) 7, .begin 1 (.permanentDelete 21 1) 7] ++
    List.replicate 3 (.next 0) ++ List.replicate 3 (.next 1) ++ List.replicate 10 (.next 0) ++
    List.replicate 11 (.next 1)

/-- A directory in trash with an upload under way. -/
def sampleDirectory : List (Event × Time) :=
  [(.call 1 (.createDirectory "d" none 10), 1), (.call 1 (.uploadStart (some 10) "a" "" 20), 2),
    (.call 1 (.softDeleteDirectory 10), 3)]

/-- The directory's delete has read the manifests of its files when the upload commits. -/
def sampleRace : List TxnAction :=
  .begin 0 (.permanentDeleteSubtree 10 1) 4 :: List.replicate 5 (.next 0) ++
    .begin 1 (.markCommitted 20 1 sampleResult) 4 :: List.replicate 5 (.next 1) ++
    List.replicate 8 (.next 0)

end TxnSystem

theorem last_reference_queued_sample :
    ∃ db s, Reachable id db ∧
      Runs.Reach (TxnSystem.step (·.setWidth 64)) TxnSystem.DeletesRead (· = .idle db) s ∧
      s.txns = ∅ ∧ ∃ manifestID ∈ s.removed, manifestID ∈ s.queued ∧
        s.db.retirementPending manifestID = true := by
  have h : ((Runs.exec (step id) Db.empty TxnSystem.sampleFiles).any fun db =>
      (Runs.exec (Runs.guarded (TxnSystem.step (·.setWidth 64)) TxnSystem.DeletesRead) (.idle db)
        TxnSystem.sampleDeletes).any fun s =>
        s.txns.entries.isEmpty && (decide (2 ∈ s.removed) &&
          !hasManifestReferences s.db.toMetadata 2)) = true := by decide
  obtain ⟨db, hdb, hf⟩ := (Option.any_eq_true _ _).1 h
  obtain ⟨s, hs, hf⟩ := (Option.any_eq_true _ _).1 hf
  simp only [Bool.and_eq_true, List.isEmpty_iff, decide_eq_true_eq, Bool.not_eq_true'] at hf
  have hr : Runs.Reach (TxnSystem.step (·.setWidth 64)) TxnSystem.DeletesRead (· = .idle db) s :=
    .exec_guarded (.init rfl) hs
  exact ⟨db, s, .exec (.init rfl) (fun _ _ _ => trivial) hdb, hr, Dict.entries_eq_nil.1 hf.1, 2,
    hf.2.1, last_reference_queued _ hr 2 hf.2.1 hf.2.2⟩

/-- `DELETE` removes the row that `MarkCommitted` has committed after `SELECT … FOR UPDATE`. -/
theorem last_reference_unqueued :
    ∃ db s, Reachable id db ∧
      Runs.Reach (TxnSystem.step (·.setWidth 64)) (fun _ _ => True) (· = .idle db) s ∧
      s.txns = ∅ ∧ ∃ manifestID ∈ s.removed,
        hasManifestReferences s.db.toMetadata manifestID = false ∧ manifestID ∉ s.queued ∧
          s.db.retirementPending manifestID = false := by
  have h : ((Runs.exec (step id) Db.empty TxnSystem.sampleDirectory).any fun db =>
      (Runs.exec (TxnSystem.step (·.setWidth 64)) (.idle db) TxnSystem.sampleRace).any fun s =>
        s.txns.entries.isEmpty && (decide (2 ∈ s.removed) &&
          (!hasManifestReferences s.db.toMetadata 2 && (decide (2 ∉ s.queued) &&
            !s.db.retirementPending 2)))) = true := by decide
  obtain ⟨db, hdb, hf⟩ := (Option.any_eq_true _ _).1 h
  obtain ⟨s, hs, hf⟩ := (Option.any_eq_true _ _).1 hf
  simp only [Bool.and_eq_true, List.isEmpty_iff, decide_eq_true_eq, Bool.not_eq_true'] at hf
  exact ⟨db, s, .exec (.init rfl) (fun _ _ _ => trivial) hdb,
    .exec (.init rfl) (fun _ _ _ => trivial) hs, Dict.entries_eq_nil.1 hf.1, 2, hf.2⟩

end HashBox.Api
