import HashBox.Api.Statements
import HashBox.Api.Proof.ClosureTable

/-!
# The status machine of `files`

Whatever statements interleave, a row of `files` is inserted as pending and moves at most once, to
committed by the `MarkCommitted` of its own upload or to failed (`file_status_machine`). `Advance`
says once what a step can do to rows, row locks and upload logs: a row that one transaction has
locked no other job changes, so what `MarkCommitted` has found pending is pending when it commits
(`Job.Ok.others`), and the invariant is kept by whatever advances so (`FileSystem.Inv.advance`).
-/

namespace HashBox.Api

variable {lower : String → String} {s s' : FileSystem} {t u : Nat} {x : Job} {f g : FileRow}
  {st : Statement} {now : Time} {ids : List Uuid}

def FileRow.content (f : FileRow) : Option Hash × Int × Int × Int × Int × Rat :=
  (f.idManifest, f.ukuran, f.chunkCount, f.newChunkCount, f.reuseChunkCount, f.dedupRatio)

def FileRow.Holds (f : FileRow) (result : UploadCommitResult) : Prop :=
  f.content = (some result.manifestID, result.totalSizeBytes, result.chunkCount,
    (result.newChunkCount : Int), (result.reuseChunkCount : Int), result.dedupRatio)

/-! ## What a step can do -/

/-- Where a row of the table after a step of the job comes from. -/
inductive RowStep (s : FileSystem) (t : Nat) (s' : FileSystem) (g : FileRow) : Prop
  | kept : g ∈ s.db.files.rows → RowStep s t s' g
  | inserted : g.statusPenyimpanan = .pending → g.idBerkas ∉ s.drawn → g.idBerkas ∈ s'.drawn →
    RowStep s t s' g
  | written (f : FileRow) : f ∈ s.db.files.rows → g.idBerkas = f.idBerkas →
    (s.rowLocks f.idBerkas = none ∨ s.rowLocks f.idBerkas = some t) →
    g.statusPenyimpanan = f.statusPenyimpanan → g.content = f.content → RowStep s t s' g
  | failed (f : FileRow) : f ∈ s.db.files.rows → g.idBerkas = f.idBerkas →
    (s.rowLocks f.idBerkas = none ∨ s.rowLocks f.idBerkas = some t) →
    f.statusPenyimpanan = .pending → g.statusPenyimpanan = .failed → RowStep s t s' g
  | committed (f : FileRow) : f ∈ s.db.files.rows → g.idBerkas = f.idBerkas →
    (s.rowLocks f.idBerkas = none ∨ s.rowLocks f.idBerkas = some t) →
    f.statusPenyimpanan = .pending → g.statusPenyimpanan = .committed →
    (s'.logs t).markCommitted = some g → RowStep s t s' g

/-- What a step adds to the log of its upload. -/
inductive LogStep (s s' : FileSystem) : UploadLog → UploadLog → Prop
  | same (l : UploadLog) : LogStep s s' l l
  | created (l : UploadLog) (id : Uuid) : id ∉ s.drawn → id ∈ s'.drawn → l.markCommitted = none →
    LogStep s s' l { l with created := some id }
  | vaultResult (l : UploadLog) (result : UploadCommitResult) : l.markCommitted = none →
    LogStep s s' l { l with vaultResult := some result }
  | markCommitted (l : UploadLog) (record : FileRow) (result : UploadCommitResult) :
    l.markCommitted = none → l.created = some record.idBerkas → l.vaultResult = some result →
    record.statusPenyimpanan = .committed → record.Holds result →
    (∀ g ∈ s'.db.files.rows, g.idBerkas = record.idBerkas → g = record) →
    LogStep s s' l { l with markCommitted := some record }
  | returned (l : UploadLog) (record : FileRow) : l.markCommitted = some record →
    LogStep s s' l { l with returned := some record }

/-- **What a step of the job `t` can do** to what the jobs share. -/
structure Advance (s : FileSystem) (t : Nat) (s' : FileSystem) : Prop where
  rows : ∀ g ∈ s'.db.files.rows, RowStep s t s' g
  locks : ∀ u id, u ≠ t → s.rowLocks id = some u → s'.rowLocks id = some u
  logs : ∀ u, u ≠ t → s'.logs u = s.logs u
  own : LogStep s s' (s.logs t) (s'.logs t)
  drawn : ∀ id ∈ s.drawn, id ∈ s'.drawn

/-! ## The invariant -/

/-- The upload has made the row, and not committed it so far. -/
structure FileSystem.Made (s : FileSystem) (t : Nat) (fileID : Uuid) : Prop where
  created : (s.logs t).created = some fileID
  uncommitted : (s.logs t).markCommitted = none

/-- The statement is one of a transaction with more statements; of `MarkCommitted`, that it has the
upload's row and Vault's result. -/
def Statement.Runs (s : FileSystem) (t : Nat) : Statement → Prop
  | .markCommitted fileID _ result => s.Made t fileID ∧ (s.logs t).vaultResult = some result
  | .markFailed _ _ => False
  | .expireStalePending _ => False
  | _ => True

/-- What `MarkCommitted` writes is the upload's row, which is pending. -/
def Statement.Writes (s : FileSystem) (written : List Uuid) : Statement → Prop
  | .markCommitted fileID _ _ => ∀ id ∈ written, id = fileID ∧
      ∀ f ∈ s.db.files.rows, f.idBerkas = id → f.statusPenyimpanan = .pending
  | _ => True

def JobPoint.Ok (s : FileSystem) (t : Nat) (written : List Uuid) : JobPoint → Prop
  | .checkOwned => (s.logs t).markCommitted = none
  | .checkExists => (s.logs t).markCommitted = none
  | .createPending => (s.logs t).markCommitted = none
  | .vaultUpload fileID _ => s.Made t fileID
  | .lockLifecycle fileID userID result => (Statement.markCommitted fileID userID result).Runs s t
  | .requeue record => (s.logs t).markCommitted = some record
  | .retain record => (s.logs t).markCommitted = some record
  | .statement st => ∀ fileID userID result, st ≠ .markCommitted fileID userID result
  | .checkDirectory => True
  | .querySubtree => True
  | .find st => st.Runs s t
  | .write st => st.Runs s t
  | .directories => True
  | .commit st => st.Runs s t ∧ st.Writes s written

structure Job.Ok (s : FileSystem) (t : Nat) (x : Job) : Prop where
  held : ∀ id ∈ x.written, s.rowLocks id = some t
  point : x.point.Ok s t x.written

structure FileSystem.Inv (s : FileSystem) : Prop where
  drawn : ∀ f ∈ s.db.files.rows, f.idBerkas ∈ s.drawn
  created : ∀ t id, (s.logs t).created = some id → id ∈ s.drawn
  own : ∀ t u id, (s.logs t).created = some id → (s.logs u).created = some id → t = u
  committed : ∀ f ∈ s.db.files.rows, f.statusPenyimpanan = .committed →
    ∃ t record, (s.logs t).markCommitted = some record ∧ record.idBerkas = f.idBerkas
  marked : ∀ t record, (s.logs t).markCommitted = some record →
    (s.logs t).created = some record.idBerkas ∧ record.statusPenyimpanan = .committed ∧
      ∃ result, (s.logs t).vaultResult = some result ∧ record.Holds result ∧
        ∀ f ∈ s.db.files.rows, f.idBerkas = record.idBerkas →
          f.statusPenyimpanan = .committed ∧ f.Holds result
  returned : ∀ t record, (s.logs t).returned = some record →
    (s.logs t).markCommitted = some record
  blank : ∀ t, t ∉ s.begun → (s.logs t).markCommitted = none
  begun : ∀ t x, s.jobs t = some x → t ∈ s.begun
  jobs : Threads.All (Job.Ok s) s.jobs

theorem FileSystem.Inv.idle : (FileSystem.idle .empty).Inv where
  drawn _ h := by cases h
  created _ _ h := by cases h
  own _ _ _ h := by cases h
  committed _ h := by cases h
  marked _ _ h := by cases h
  returned _ _ h := by cases h
  blank _ _ := rfl
  begun _ _ h := by cases h
  jobs := Threads.All.empty

theorem LogStep.mark {l l' : UploadLog} {record : FileRow} (h : LogStep s s' l l')
    (hl : l.markCommitted = some record) :
    l'.markCommitted = some record ∧ l'.created = l.created ∧ l'.vaultResult = l.vaultResult := by
  cases h with
  | same => exact ⟨hl, rfl, rfl⟩
  | created id _ _ hn => rw [hl] at hn; cases hn
  | vaultResult result hn => rw [hl] at hn; cases hn
  | markCommitted record result hn => rw [hl] at hn; cases hn
  | returned => exact ⟨hl, rfl, rfl⟩

theorem Statement.Runs.congr (h : st.Runs s t) (hl : s'.logs t = s.logs t) : st.Runs s' t := by
  cases st with
  | markCommitted fileID userID result =>
    obtain ⟨⟨h1, h2⟩, h3⟩ := h
    exact ⟨⟨hl ▸ h1, hl ▸ h2⟩, hl ▸ h3⟩
  | markFailed => exact h.elim
  | expireStalePending => exact h.elim
  | _ => trivial

/-- A job reads its log, its locks and the rows it has locked. -/
theorem Job.Ok.congr (h : x.Ok s t)
    (hk : ∀ id, s.rowLocks id = some t → s'.rowLocks id = some t) (hl : s'.logs t = s.logs t)
    (hrows : ∀ g ∈ s'.db.files.rows, s.rowLocks g.idBerkas = some t →
      g ∈ s.db.files.rows ∨ g.statusPenyimpanan = .pending) : x.Ok s' t := by
  refine ⟨fun id hid => hk id (h.held id hid), ?_⟩
  have hp := h.point
  have hheld := h.held
  generalize x.point = p at hp
  cases p with
  | checkOwned | checkExists | createPending | requeue | retain =>
    simp only [JobPoint.Ok, hl] at hp ⊢
    exact hp
  | vaultUpload fileID userID => exact ⟨hl ▸ hp.created, hl ▸ hp.uncommitted⟩
  | lockLifecycle fileID userID result =>
    have hruns : (Statement.markCommitted fileID userID result).Runs s t := hp
    exact hruns.congr hl
  | statement => exact hp
  | checkDirectory | querySubtree | directories => trivial
  | find st => exact Statement.Runs.congr hp hl
  | write st => exact Statement.Runs.congr hp hl
  | commit st =>
    refine ⟨hp.1.congr hl, ?_⟩
    have hw := hp.2
    cases st with
    | markCommitted fileID userID result =>
      refine fun id hid => ⟨(hw id hid).1, fun g hg hgid => ?_⟩
      rcases hrows g hg (hgid ▸ hheld id hid) with hold | hpend
      · exact (hw id hid).2 g hold hgid
      · exact hpend
    | _ => trivial

theorem Job.Ok.others (h : x.Ok s u) (ha : Advance s t s') (hu : u ≠ t) : x.Ok s' u := by
  refine h.congr (fun id => ha.locks u id hu) (ha.logs u hu) fun g hg hlock => ?_
  -- the row is locked, so the step has not written it
  have hno : ∀ f : FileRow, g.idBerkas = f.idBerkas →
      ¬ (s.rowLocks f.idBerkas = none ∨ s.rowLocks f.idBerkas = some t) := by
    intro f hfid hfree
    rw [← hfid, hlock] at hfree
    rcases hfree with hfree | hfree
    · cases hfree
    · exact hu (Option.some.inj hfree)
  cases ha.rows g hg with
  | kept hold => exact .inl hold
  | inserted hpend => exact .inr hpend
  | written f _ hfid hfree => exact absurd hfree (hno f hfid)
  | failed f _ hfid hfree => exact absurd hfree (hno f hfid)
  | committed f _ hfid hfree => exact absurd hfree (hno f hfid)

theorem Advance.mark (ha : Advance s t s') {record : FileRow}
    (hm : (s.logs u).markCommitted = some record) :
    (s'.logs u).markCommitted = some record ∧ (s'.logs u).created = (s.logs u).created ∧
      (s'.logs u).vaultResult = (s.logs u).vaultResult := by
  by_cases hu : u = t
  · subst hu
    exact ha.own.mark hm
  · rw [ha.logs u hu]
    exact ⟨hm, rfl, rfl⟩

theorem Advance.created (ha : Advance s t s') {id : Uuid}
    (hc : (s'.logs u).created = some id) :
    (s.logs u).created = some id ∨ (u = t ∧ id ∉ s.drawn ∧ id ∈ s'.drawn) := by
  by_cases hu : u = t
  · subst hu
    have hown := ha.own
    generalize s.logs u = l at hown ⊢
    generalize s'.logs u = l' at hown hc
    cases hown with
    | created id' hnew hdrawn => cases hc; exact .inr ⟨rfl, hnew, hdrawn⟩
    | same | vaultResult | markCommitted | returned => exact .inl hc
  · exact .inl (ha.logs u hu ▸ hc)

theorem Advance.marked (ha : Advance s t s') {record : FileRow}
    (hm : (s'.logs u).markCommitted = some record) :
    (s.logs u).markCommitted = some record ∨
      (s'.logs u).created = some record.idBerkas ∧ record.statusPenyimpanan = .committed ∧
        ∃ result, (s'.logs u).vaultResult = some result ∧ record.Holds result ∧
          ∀ g ∈ s'.db.files.rows, g.idBerkas = record.idBerkas → g = record := by
  by_cases hu : u = t
  · subst hu
    have hown := ha.own
    generalize s.logs u = l at hown ⊢
    generalize s'.logs u = l' at hown hm ⊢
    cases hown with
    | markCommitted record' result hn hc hv hst hh hrows =>
      cases hm
      exact .inr ⟨hc, hst, result, hv, hh, hrows⟩
    | same | created | vaultResult | returned => exact .inl hm
  · exact .inl (ha.logs u hu ▸ hm)

theorem Advance.returned (ha : Advance s t s') {record : FileRow}
    (hr : (s'.logs u).returned = some record) :
    (s.logs u).returned = some record ∨ (s.logs u).markCommitted = some record := by
  by_cases hu : u = t
  · subst hu
    have hown := ha.own
    generalize s.logs u = l at hown ⊢
    generalize s'.logs u = l' at hown hr
    cases hown with
    | returned record' hm => cases hr; exact .inr hm
    | same | created | vaultResult | markCommitted => exact .inl hr
  · exact .inl (ha.logs u hu ▸ hr)

theorem RowStep.origin (h : RowStep s t s' g) :
    (∃ f ∈ s.db.files.rows, g.idBerkas = f.idBerkas) ∨
      g.idBerkas ∉ s.drawn ∧ g.idBerkas ∈ s'.drawn := by
  cases h with
  | kept hg => exact .inl ⟨g, hg, rfl⟩
  | inserted _ hnew hdrawn => exact .inr ⟨hnew, hdrawn⟩
  | written f hf hid => exact .inl ⟨f, hf, hid⟩
  | failed f hf hid => exact .inl ⟨f, hf, hid⟩
  | committed f hf hid => exact .inl ⟨f, hf, hid⟩

/-- A row that is committed after a step was so before, or the step has committed it. -/
theorem RowStep.origin_committed (h : RowStep s t s' g) (hc : g.statusPenyimpanan = .committed) :
    (∃ f ∈ s.db.files.rows, g.idBerkas = f.idBerkas ∧ f.statusPenyimpanan = .committed) ∨
      (s'.logs t).markCommitted = some g := by
  cases h with
  | kept hg => exact .inl ⟨g, hg, rfl, hc⟩
  | inserted hpend => rw [hpend] at hc; cases hc
  | written f hf hid _ hst => exact .inl ⟨f, hf, hid, hst.symm.trans hc⟩
  | failed f _ _ _ _ hst => rw [hst] at hc; cases hc
  | committed f _ _ _ _ _ hm => exact .inr hm

theorem RowStep.settled (h : RowStep s t s' g) {id : Uuid} (hid : g.idBerkas = id)
    (hdrawn : id ∈ s.drawn) {result : UploadCommitResult}
    (hold : ∀ f ∈ s.db.files.rows, f.idBerkas = id →
      f.statusPenyimpanan = .committed ∧ f.Holds result) :
    g.statusPenyimpanan = .committed ∧ g.Holds result := by
  -- a row that is committed is not pending, so no step fails it or commits it again
  have hnot : ∀ f ∈ s.db.files.rows, g.idBerkas = f.idBerkas →
      f.statusPenyimpanan ≠ .pending := by
    intro f hf hfid hpend
    rw [(hold f hf (hfid.symm.trans hid)).1] at hpend
    cases hpend
  cases h with
  | kept hg => exact hold g hg hid
  | inserted _ hnew => exact absurd hdrawn (hid ▸ hnew)
  | written f hf hfid _ hst hcont =>
    obtain ⟨h1, h2⟩ := hold f hf (hfid.symm.trans hid)
    exact ⟨hst.trans h1, hcont.trans h2⟩
  | failed f hf hfid _ hpend => exact absurd hpend (hnot f hf hfid)
  | committed f hf hfid _ hpend => exact absurd hpend (hnot f hf hfid)

/-- **The invariant is kept** by whatever a step can do, if the job that makes it is left well. -/
theorem FileSystem.Inv.advance (h : s.Inv) (ha : Advance s t s') {o : Option Job}
    (hjobs : s'.jobs = Function.update s.jobs t o) (ht : t ∈ s'.begun)
    (hbegun : ∀ u ∈ s.begun, u ∈ s'.begun) (hok : ∀ x, o = some x → x.Ok s' t) : s'.Inv where
  drawn g hg := by
    rcases (ha.rows g hg).origin with ⟨f, hf, hid⟩ | ⟨-, hnew⟩
    · exact hid ▸ ha.drawn _ (h.drawn f hf)
    · exact hnew
  created u id hc := by
    rcases ha.created hc with hc | ⟨-, -, hd⟩
    · exact ha.drawn id (h.created u id hc)
    · exact hd
  own u v id hu hv := by
    rcases ha.created hu with hu | ⟨rfl, hnew, -⟩ <;>
      rcases ha.created hv with hv | ⟨rfl, hnew', -⟩
    · exact h.own u v id hu hv
    · exact absurd (h.created u id hu) hnew'
    · exact absurd (h.created v id hv) hnew
    · rfl
  committed g hg hcom := by
    rcases (ha.rows g hg).origin_committed hcom with ⟨f, hf, hid, hfc⟩ | hm
    · obtain ⟨u, record, hm, hrid⟩ := h.committed f hf hfc
      exact ⟨u, record, (ha.mark hm).1, hrid.trans hid.symm⟩
    · exact ⟨t, g, hm, rfl⟩
  marked u record hm := by
    rcases ha.marked hm with hm | ⟨hc, hst, result, hv, hh, hrows⟩
    · obtain ⟨hc, hst, result, hv, hh, hrows⟩ := h.marked u record hm
      obtain ⟨-, hc', hv'⟩ := ha.mark hm
      exact ⟨hc'.trans hc, hst, result, hv'.trans hv, hh, fun g hg hid =>
        (ha.rows g hg).settled hid (h.created u _ hc) hrows⟩
    · refine ⟨hc, hst, result, hv, hh, fun g hg hid => ?_⟩
      cases hrows g hg hid
      exact ⟨hst, hh⟩
  returned u record hr := by
    rcases ha.returned hr with hr | hm
    · exact (ha.mark (h.returned u record hr)).1
    · exact (ha.mark hm).1
  blank u hu := by
    have hut : u ≠ t := fun e => hu (e ▸ ht)
    rw [ha.logs u hut]
    exact h.blank u fun hold => hu (hbegun u hold)
  begun u x hx := by
    by_cases hu : u = t
    · exact hu ▸ ht
    · rw [hjobs, Function.update_of_ne hu] at hx
      exact hbegun u (h.begun u x hx)
  jobs := by
    rw [hjobs]
    cases o with
    | none => exact h.jobs.erase fun _ _ hu _ hx => hx.others ha hu
    | some x => exact h.jobs.update (fun _ _ hu _ hx => hx.others ha hu) (hok x rfl)

/-! ## The steps -/

/-- A transaction ends with the rows it has written. -/
theorem FileSystem.Inv.endsWith (h : s.Inv) (hx : s.jobs t = some x) {db : Db}
    (hrows : ∀ g ∈ db.files.rows, RowStep s t ({ s with db }.ends t) g) :
    Advance s t ({ s with db }.ends t) ∧ ({ s with db }.ends t).Inv := by
  have ha : Advance s t ({ s with db }.ends t) :=
    ⟨hrows, fun _ _ hu hk => Locks.release_other hk hu, fun _ _ => rfl, .same _, fun _ hid => hid⟩
  exact ⟨ha, h.advance ha rfl (h.begun t x hx) (fun _ hu => hu) fun _ hy => by cases hy⟩

theorem FileSystem.logs_notes (s : FileSystem) (t : Nat) (f : UploadLog → UploadLog) (x : Job) :
    ((s.notes t f).goes t x).logs t = f (s.logs t) :=
  Function.update_self ..

/-- An upload goes on with rows written, rows locked or released, and a note in its log. -/
theorem FileSystem.Inv.goesWith (h : s.Inv) (hx : s.jobs t = some x) {s₁ : FileSystem}
    {f : UploadLog → UploadLog} {x' : Job} (hj : s₁.jobs = s.jobs) (hl : s₁.logs = s.logs)
    (hb : s₁.begun = s.begun)
    (hrows : ∀ g ∈ s₁.db.files.rows, RowStep s t ((s₁.notes t f).goes t x') g)
    (hk : ∀ u id, u ≠ t → s.rowLocks id = some u → s₁.rowLocks id = some u)
    (hown : LogStep s ((s₁.notes t f).goes t x') (s.logs t) (f (s.logs t)))
    (hd : ∀ id ∈ s.drawn, id ∈ s₁.drawn) (hok : x'.Ok ((s₁.notes t f).goes t x') t) :
    Advance s t ((s₁.notes t f).goes t x') ∧ ((s₁.notes t f).goes t x').Inv := by
  have ha : Advance s t ((s₁.notes t f).goes t x') := by
    refine ⟨hrows, hk, fun u hu => ?_, ?_, hd⟩
    · rw [← hl]
      exact Function.update_of_ne hu ..
    · rw [FileSystem.logs_notes, hl]
      exact hown
  have hjobs : ((s₁.notes t f).goes t x').jobs = Function.update s.jobs t (some x') := by
    rw [← hj]
    rfl
  have hbegun : ((s₁.notes t f).goes t x').begun = s.begun := hb
  refine ⟨ha, h.advance ha hjobs (hbegun ▸ h.begun t x hx) (fun u hu => hbegun ▸ hu) ?_⟩
  intro y hy
  cases hy
  exact hok

theorem FileSystem.Inv.moves (h : s.Inv) (hx : s.jobs t = some x)
    (hf : s'.db.files = s.db.files) (hd : s'.drawn = s.drawn) (hb : s'.begun = s.begun)
    (hk : ∀ u id, u ≠ t → s.rowLocks id = some u → s'.rowLocks id = some u)
    (hl : ∀ u, u ≠ t → s'.logs u = s.logs u) (hown : LogStep s s' (s.logs t) (s'.logs t))
    {o : Option Job} (hjobs : s'.jobs = Function.update s.jobs t o)
    (hok : ∀ x, o = some x → x.Ok s' t) : Advance s t s' ∧ s'.Inv := by
  have ha : Advance s t s' :=
    ⟨fun g hg => .kept (hf ▸ hg), hk, hl, hown, fun id hid => hd ▸ hid⟩
  exact ⟨ha, h.advance ha hjobs (hb ▸ h.begun t x hx) (fun u hu => hb ▸ hu) hok⟩

theorem FileSystem.Inv.ends (h : s.Inv) (hx : s.jobs t = some x) :
    Advance s t (s.ends t) ∧ (s.ends t).Inv :=
  h.moves hx rfl rfl rfl (fun _ _ hu hk => Locks.release_other hk hu) (fun _ _ => rfl) (.same _) rfl
    fun _ hx => by cases hx

theorem FileSystem.Inv.goes (h : s.Inv) (hx : s.jobs t = some x) {x' : Job} (hok : x'.Ok s t) :
    Advance s t (s.goes t x') ∧ (s.goes t x').Inv :=
  h.moves hx rfl rfl rfl (fun _ _ _ hk => hk) (fun _ _ => rfl) (.same _) rfl fun y hy => by
    cases hy
    exact hok.congr (fun _ hk => hk) rfl fun g hg _ => .inl hg

theorem FileSystem.Inv.locks (h : s.Inv) (hx : s.jobs t = some x) {ks : List Uuid}
    {rowLocks : Locks Uuid} (hl : s.rowLocks.acquireAll t ks = some rowLocks) {x' : Job}
    (hok : x'.Ok { s with rowLocks } t) :
    Advance s t ({ s with rowLocks }.goes t x') ∧ ({ s with rowLocks }.goes t x').Inv :=
  h.moves hx rfl rfl rfl (fun _ _ _ hk => Locks.acquireAll_keeps hl hk) (fun _ _ => rfl) (.same _)
    rfl fun y hy => by
      cases hy
      exact hok.congr (fun _ hk => hk) rfl fun g hg _ => .inl hg

theorem FileSystem.Inv.notes (h : s.Inv) (hx : s.jobs t = some x) {f : UploadLog → UploadLog}
    {x' : Job} (hown : LogStep s ((s.notes t f).goes t x') (s.logs t) (f (s.logs t)))
    (hok : x'.Ok (s.notes t f) t) :
    Advance s t ((s.notes t f).goes t x') ∧ ((s.notes t f).goes t x').Inv := by
  refine h.goesWith hx rfl rfl rfl (fun g hg => .kept hg) (fun _ _ _ hk => hk) hown
    (fun _ hid => hid) ?_
  exact hok.congr (fun _ hk => hk) rfl fun g hg _ => .inl hg

theorem FileSystem.Inv.markFailed (h : s.Inv) (hx : s.jobs t = some x) (fileID userID : Uuid) :
    Advance s t (s.markFailed t x fileID userID) ∧ (s.markFailed t x fileID userID).Inv :=
  h.moves hx rfl rfl rfl (fun _ _ hu hk => Locks.release_other hk hu) (fun _ _ => rfl) (.same _) rfl
    fun y hy => by
      cases hy
      exact ⟨fun _ hid => (by cases hid), fun _ _ _ hst => by cases hst⟩

theorem FileSystem.Inv.returns (h : s.Inv) (hx : s.jobs t = some x) {record : FileRow}
    (hm : (s.logs t).markCommitted = some record) :
    Advance s t (s.returns t record) ∧ (s.returns t record).Inv := by
  refine h.moves hx rfl rfl rfl (fun _ _ hu hk => Locks.release_other hk hu)
    (fun u hu => Function.update_of_ne hu ..) ?_ rfl fun _ hy => by cases hy
  rw [show (s.returns t record).logs t = { s.logs t with returned := some record } from
    Function.update_self ..]
  exact .returned _ _ hm

theorem FileSystem.Inv.fails (h : s.Inv) (hx : s.jobs t = some x) :
    Advance s t (s.fails t x) ∧ (s.fails t x).Inv := by
  have hok := h.jobs t x hx
  have hp := hok.point
  unfold FileSystem.fails
  split
  · exact h.markFailed hx _ _
  · exact h.markFailed hx _ _
  · exact h.markFailed hx _ _
  · exact h.markFailed hx _ _
  · next record hpoint =>
    rw [hpoint] at hp
    exact h.goes hx ⟨hok.held, hp⟩
  · next record hpoint =>
    rw [hpoint] at hp
    exact h.returns hx hp
  · exact h.ends hx

/-! ## The writes -/

theorem Statement.mem_write {files : Table FileRow.idBerkas} :
    g ∈ (st.write now ids files).rows ↔
      (g ∈ files.rows ∧ g.idBerkas ∉ ids) ∨
        ∃ f ∈ files.rows, f.idBerkas ∈ ids ∧ st.sets now f = some g := by
  rw [write, Table.mem_filterMap]
  constructor
  · rintro ⟨f, hf, h⟩
    unfold rewrites at h
    split at h
    · next hid => exact .inr ⟨f, hf, hid, h⟩
    · next hid =>
      cases h
      exact .inl ⟨hf, hid⟩
  · rintro (⟨hg, hid⟩ | ⟨f, hf, hid, h⟩)
    · exact ⟨g, hg, if_neg hid⟩
    · exact ⟨f, hf, (if_pos hid).trans h⟩

theorem Statement.sets_id (h : st.sets now f = some g) : g.idBerkas = f.idBerkas := by
  cases st <;> cases h <;> rfl

/-- What the statements assign: `MarkCommitted` commits and two others fail the pending rows they
select, the rest leave status and content alone. -/
theorem Statement.sets_cases (h : st.sets now f = some g) :
    (∃ fileID userID result, st = .markCommitted fileID userID result ∧ g = f.commit result now) ∨
      (g.statusPenyimpanan = .failed ∧ (∀ m, st.selects m f = true →
        f.statusPenyimpanan = .pending) ∧ ∀ s t, ¬ st.Runs s t) ∨
      (g.statusPenyimpanan = f.statusPenyimpanan ∧ g.content = f.content) := by
  cases st with
  | markCommitted fileID userID result => cases h; exact .inl ⟨fileID, userID, result, rfl, rfl⟩
  | markFailed fileID userID =>
    cases h
    exact .inr (.inl ⟨rfl, fun m hs => (selectsPending_iff.1 hs).2.2, fun _ _ => id⟩)
  | expireStalePending olderThan =>
    cases h
    refine .inr (.inl ⟨rfl, fun m hs => ?_, fun _ _ => id⟩)
    rw [selects, Bool.and_eq_true, beq_iff_eq] at hs
    exact hs.1
  | softDelete | restore | setStarred | softDeleteSubtree | restoreSubtree =>
    cases h
    exact .inr (.inr ⟨rfl, rfl⟩)
  | permanentDelete => cases h
  | permanentDeleteSubtree => cases h

theorem Statement.mem_selected {m : Metadata} (hf : f ∈ m.files.rows)
    (hid : f.idBerkas ∈ st.selectedIDs m) : st.selects m f = true := by
  obtain ⟨r, hr, hrid⟩ := List.mem_map.1 hid
  obtain ⟨hr, hs⟩ := List.mem_filter.1 hr
  rwa [← Table.eq_of_key hr hf hrid]

theorem Statement.write_rows (st : Statement) (m : Metadata) (now : Time) :
    (st.write now (st.selectedIDs m) m.files).rows =
      m.files.rows.filterMap fun f => if st.selects m f then st.sets now f else some f := by
  refine List.filterMap_congr fun f hf => ?_
  have hiff : f.idBerkas ∈ st.selectedIDs m ↔ st.selects m f = true :=
    ⟨mem_selected hf, fun hs => List.mem_map_of_mem (List.mem_filter.2 ⟨hf, hs⟩)⟩
  simp only [rewrites, hiff]

/-- A statement alone, on the rows it selects, is an update of `File.lean` or `Directory.lean`. -/
theorem Statement.eq_write {m : Metadata} {set : FileRow → FileRow}
    {files : Table FileRow.idBerkas} (hset : ∀ f, st.sets now f = some (set f))
    (hrows : files.rows = Table.updateRows (st.selects m) set m.files.rows) :
    files = st.write now (st.selectedIDs m) m.files := by
  refine Table.ext (Eq.trans ?_ (st.write_rows m now).symm)
  rw [hrows, Table.updateRows, ← List.filterMap_eq_map]
  refine List.filterMap_congr fun f _ => ?_
  simp only [Function.comp_apply]
  split
  · exact (hset f).symm
  · rfl

theorem Statement.write_eq_delete {m : Metadata} (hset : ∀ f, st.sets now f = none) :
    st.write now (st.selectedIDs m) m.files = m.files.deleteWhere (st.selects m) := by
  refine Table.ext ((st.write_rows m now).trans ?_)
  show _ = m.files.rows.filter fun r => !st.selects m r
  rw [← List.filterMap_eq_filter]
  refine List.filterMap_congr fun f _ => ?_
  cases hs : st.selects m f with
  | true => simp [hset f, Option.guard, hs]
  | false => simp [Option.guard, hs]

/-- The statements of the transactions that `Calls.lean` runs in one step. -/
theorem markFailed_files (db : Db) (fileID userID : Uuid) (now : Time) :
    (markFailed db fileID userID).files = (Statement.markFailed fileID userID).write now
      ((Statement.markFailed fileID userID).selectedIDs db.toMetadata) db.files :=
  Statement.eq_write (fun _ => rfl) rfl

theorem expireStalePending_files (db : Db) (olderThan now : Time) :
    (expireStalePending db olderThan).files = (Statement.expireStalePending olderThan).write now
      ((Statement.expireStalePending olderThan).selectedIDs db.toMetadata) db.files :=
  Statement.eq_write (fun _ => rfl) rfl

theorem trashSubtree_files (m : Metadata) (directoryID userID : Uuid) (now : Time) :
    (m.trashSubtree (m.subtree directoryID) userID now).files =
      (Statement.softDeleteSubtree directoryID).write now
        ((Statement.softDeleteSubtree directoryID).selectedIDs m) m.files :=
  Statement.eq_write (fun _ => rfl) rfl

theorem untrashSubtree_files (m : Metadata) (directoryID userID : Uuid) (now : Time) :
    (m.untrashSubtree (m.subtree directoryID) userID).files =
      (Statement.restoreSubtree directoryID userID).write now
        ((Statement.restoreSubtree directoryID userID).selectedIDs m) m.files :=
  Statement.eq_write (fun _ => rfl) rfl

theorem removeFiles_files (m : Metadata) (subtreeIDs : List Uuid) (now : Time) :
    (m.removeFiles subtreeIDs).files = (Statement.permanentDeleteSubtree subtreeIDs).write now
      ((Statement.permanentDeleteSubtree subtreeIDs).selectedIDs m) m.files := by
  have hdelete : ∀ f, (Statement.permanentDeleteSubtree subtreeIDs).sets now f = none :=
    fun _ => rfl
  exact (Statement.write_eq_delete hdelete).symm

theorem FileSystem.Inv.statement (h : s.Inv) (hx : s.jobs t = some x)
    (hst : ∀ fileID userID result, st ≠ .markCommitted fileID userID result)
    {rowLocks : Locks Uuid}
    (hl : s.rowLocks.acquireAll t (st.selectedIDs s.db.toMetadata) = some rowLocks)
    (now : Time) {files : Table FileRow.idBerkas}
    (hfiles : files = st.write now (st.selectedIDs s.db.toMetadata) s.db.files) :
    Advance s t ({ s with db := { s.db with files } }.ends t) ∧
      ({ s with db := { s.db with files } }.ends t).Inv := by
  refine h.endsWith hx fun g hg => ?_
  have hg : g ∈ files.rows := hg
  rw [hfiles] at hg
  rcases Statement.mem_write.1 hg with ⟨hg, -⟩ | ⟨f, hf, hid, hset⟩
  · exact .kept hg
  · have hfree := Locks.acquireAll_free hl hid
    rcases Statement.sets_cases hset with ⟨_, _, _, he, -⟩ | ⟨hfail, hpend, -⟩ | ⟨hsame, hcont⟩
    · exact absurd he (hst _ _ _)
    · exact .failed f hf (Statement.sets_id hset) hfree
        (hpend _ (Statement.mem_selected hf hid)) hfail
    · exact .written f hf (Statement.sets_id hset) hfree hsame hcont

theorem Job.apply_files (x : Job) (st : Statement) (db : Db) :
    (x.apply st db).files = st.write x.now x.written db.files := by
  unfold Job.apply
  cases x.call with
  | permanentDelete fileID userID =>
    exact congrArg Metadata.files (queueManifestRetirements_metadata _ x.manifestIDs x.now)
  | permanentDeleteSubtree directoryID userID =>
    exact congrArg Metadata.files (queueManifestRetirements_metadata _ x.manifestIDs x.now)
  | _ => rfl

theorem FileSystem.Inv.markCommitted (h : s.Inv) (hx : s.jobs t = some x)
    {fileID userID : Uuid} {result : UploadCommitResult} {db : Db} {record : FileRow}
    (hp : (Statement.markCommitted fileID userID result).Runs s t ∧
      (Statement.markCommitted fileID userID result).Writes s x.written)
    (hdb : db.files = (Statement.markCommitted fileID userID result).write x.now x.written
      s.db.files)
    (hfind : db.files.rows.find? (fun f => decide (f.idBerkas ∈ x.written)) = some record) :
    Advance s t ((({ s with db }.release t).notes t fun l =>
        { l with markCommitted := some record }).goes t
          { x with point := .requeue record, written := [] }) ∧
      ((({ s with db }.release t).notes t fun l =>
        { l with markCommitted := some record }).goes t
          { x with point := .requeue record, written := [] }).Inv := by
  obtain ⟨⟨⟨hmade, hnone⟩, hres⟩, hw⟩ := hp
  have hheld := (h.jobs t x hx).held
  have hmem : record ∈ db.files.rows := List.mem_of_find?_eq_some hfind
  have hrec : record.idBerkas ∈ x.written := by simpa using List.find?_some hfind
  have hrid : record.idBerkas = fileID := (hw _ hrec).1
  -- every row that is written is the record
  have hone : ∀ g ∈ db.files.rows, g.idBerkas ∈ x.written → g = record := fun g hg hid =>
    Table.eq_of_key hg hmem ((hw _ hid).1.trans hrid.symm)
  have hcom : record.statusPenyimpanan = .committed ∧ record.Holds result := by
    rw [hdb] at hmem
    rcases Statement.mem_write.1 hmem with ⟨-, hout⟩ | ⟨f, -, -, hset⟩
    · exact absurd hrec hout
    · cases hset
      exact ⟨rfl, rfl⟩
  refine h.goesWith hx rfl rfl rfl (fun g hg => ?_) (fun u id hu hk => Locks.release_other hk hu)
    ?_ (fun _ hid => hid) ⟨fun _ hid => (by cases hid), ?_⟩
  · have hg : g ∈ db.files.rows := hg
    have hg' := hg
    rw [hdb] at hg'
    rcases Statement.mem_write.1 hg' with ⟨hold, -⟩ | ⟨f, hf, hid, hset⟩
    · exact .kept hold
    · have hgid := Statement.sets_id hset
      cases hone g hg (hgid ▸ hid)
      exact .committed f hf hgid (.inr (hheld _ hid)) ((hw _ hid).2 f hf rfl) hcom.1
        (by rw [FileSystem.logs_notes])
  · exact .markCommitted _ record result hnone (hrid ▸ hmade) hres hcom.1 hcom.2
      fun g hg hid => hone g hg (hid ▸ hrec)
  · rw [JobPoint.Ok, FileSystem.logs_notes]

theorem FileSystem.Inv.commit (h : s.Inv) (hx : s.jobs t = some x) {db : Db}
    (hp : st.Runs s t) (hst : ∀ fileID userID result, st ≠ .markCommitted fileID userID result)
    (hdb : db.files = st.write x.now x.written s.db.files) :
    Advance s t ({ s with db }.ends t) ∧ ({ s with db }.ends t).Inv := by
  have hheld := (h.jobs t x hx).held
  refine h.endsWith hx fun g hg => ?_
  have hg : g ∈ db.files.rows := hg
  rw [hdb] at hg
  rcases Statement.mem_write.1 hg with ⟨hg, -⟩ | ⟨f, hf, hid, hset⟩
  · exact .kept hg
  · rcases Statement.sets_cases hset with ⟨_, _, _, he, -⟩ | ⟨-, -, hno⟩ | ⟨hsame, hcont⟩
    · exact absurd he (hst _ _ _)
    · exact absurd hp (hno s t)
    · exact .written f hf (Statement.sets_id hset) (.inr (hheld _ hid)) hsame hcont

theorem FileSystem.Inv.commits (lower : String → String) (h : s.Inv) (hx : s.jobs t = some x)
    (hp : st.Runs s t ∧ st.Writes s x.written) :
    Advance s t (s.commits lower t x st) ∧ (s.commits lower t x st).Inv := by
  have hdb := x.apply_files st s.db
  unfold FileSystem.commits
  generalize x.apply st s.db = db at hdb
  dsimp only
  split
  · exact h.fails hx
  · split
    · next fileID userID result =>
      split
      · next hnone =>
        -- no row was written
        rw [List.find?_eq_none] at hnone
        have hrows : ∀ g ∈ db.files.rows, g ∈ s.db.files.rows := by
          intro g hg
          have hg' := hg
          rw [hdb] at hg'
          rcases Statement.mem_write.1 hg' with ⟨hold, -⟩ | ⟨f, -, hid, hset⟩
          · exact hold
          · have hout := hnone g hg
            rw [Statement.sets_id hset, decide_eq_true_eq] at hout
            exact absurd hid hout
        have ha : Advance s t ({ s with db }.markFailed t x fileID userID) :=
          ⟨fun g hg => .kept (hrows g hg), fun _ _ hu hk => Locks.release_other hk hu,
            fun _ _ => rfl, .same _, fun _ hid => hid⟩
        refine ⟨ha, h.advance ha rfl (h.begun t x hx) (fun _ hu => hu) fun y hy => ?_⟩
        cases hy
        exact ⟨fun _ hid => (by cases hid), fun _ _ _ hst => by cases hst⟩
      · next record hfind => exact h.markCommitted hx hp hdb hfind
    · next hst => exact h.commit hx hp.1 hst hdb

theorem createPending_row {db : Db} {userID : Uuid} {directoryID : Option Uuid}
    {name mimeType : String} {newID : Uuid} {out : Db × FileRow}
    (h : createPending lower db userID directoryID name mimeType newID now = .ok out) :
    out.2 = pendingRow userID directoryID name mimeType newID now := by
  unfold createPending at h
  dsimp only at h
  split at h
  · cases h
    rfl
  · split at h <;> cases h

theorem FileSystem.Inv.createPending (h : s.Inv) (hx : s.jobs t = some x) {userID : Uuid}
    {directoryID : Option Uuid} {name mimeType : String} {newID : Uuid} {db : Db} {row : FileRow}
    (hp : (s.logs t).markCommitted = none) (hheld : ∀ id ∈ x.written, s.rowLocks id = some t)
    (hnew : newID ∉ s.drawn)
    (hc : Api.createPending lower s.db userID directoryID name mimeType newID now = .ok (db, row)) :
    Advance s t (({ s with db, drawn := row.idBerkas :: s.drawn }.notes t fun l =>
        { l with created := some row.idBerkas }).goes t
          { x with point := .vaultUpload row.idBerkas userID }) ∧
      (({ s with db, drawn := row.idBerkas :: s.drawn }.notes t fun l =>
        { l with created := some row.idBerkas }).goes t
          { x with point := .vaultUpload row.idBerkas userID }).Inv := by
  obtain ⟨files, hins, -, rfl⟩ := createPending_ok hc
  obtain rfl : row = pendingRow userID directoryID name mimeType newID now := createPending_row hc
  refine h.goesWith hx rfl rfl rfl (fun g hg => ?_) (fun _ _ _ hk => hk)
    (.created _ newID hnew List.mem_cons_self hp) (fun _ hid => List.mem_cons_of_mem _ hid)
    ⟨hheld, ⟨?_, ?_⟩⟩
  · have hg : g ∈ files.rows := hg
    rw [Table.insert_rows hins, List.mem_append, List.mem_singleton] at hg
    rcases hg with hg | rfl
    · exact .kept hg
    · exact .inserted rfl hnew List.mem_cons_self
  · rw [FileSystem.logs_notes]
  · rw [FileSystem.logs_notes]
    exact hp

theorem FileSystem.Inv.next (h : s.Inv) (hx : s.jobs t = some x) {i : Input}
    (hs : s.next lower t x i = some s') : Advance s t s' ∧ s'.Inv := by
  have hok := h.jobs t x hx
  have hheld := hok.held
  have hp := hok.point
  unfold FileSystem.next at hs
  split at hs
  · next hpoint =>
    rw [hpoint] at hp
    split at hs
    · split at hs <;> cases hs
      · exact h.ends hx
      · exact h.goes hx ⟨hheld, hp⟩
    · cases hs
  · next hpoint =>
    rw [hpoint] at hp
    split at hs
    · split at hs <;> cases hs
      · exact h.ends hx
      · exact h.goes hx ⟨hheld, hp⟩
    · cases hs
  · next hpoint =>
    rw [hpoint] at hp
    split at hs
    · split at hs
      · cases hs
      · next hnew =>
        split at hs
        · cases hs
          exact h.ends hx
        · next hc =>
          cases hs
          exact h.createPending hx hp hheld hnew hc
    · cases hs
  · next fileID userID hpoint =>
    rw [hpoint] at hp
    split at hs <;> cases hs
    · exact h.markFailed hx fileID userID
    · next result _ =>
      refine h.notes hx (.vaultResult _ result hp.uncommitted) ⟨hheld, ?_⟩
      have hlog : (s.notes t fun l => { l with vaultResult := some result }).logs t =
          { s.logs t with vaultResult := some result } := Function.update_self ..
      exact ⟨⟨by rw [hlog]; exact hp.created, by rw [hlog]; exact hp.uncommitted⟩, by rw [hlog]⟩
  · next fileID userID result hpoint =>
    rw [hpoint] at hp
    cases hs
    exact h.goes hx ⟨hheld, hp⟩
  · next record hpoint =>
    rw [hpoint] at hp
    cases hs
    refine h.moves hx ?_ rfl rfl (fun _ _ _ hk => hk) (fun _ _ => rfl) (.same _) rfl fun y hy => ?_
    · simp only [FileSystem.goes]
      split <;> rfl
    · cases hy
      exact ⟨hheld, hp⟩
  · next record hpoint =>
    rw [hpoint] at hp
    cases hs
    exact h.returns hx hp
  · next st hpoint =>
    rw [hpoint] at hp
    obtain ⟨rowLocks, hl, rfl⟩ := Option.map_eq_some_iff.1 hs
    dsimp only
    split
    · exact h.statement hx hp hl i.now rfl
    · exact h.ends hx
  · split at hs
    · split at hs <;> cases hs
      · exact h.goes hx ⟨hheld, trivial⟩
      · exact h.ends hx
    · split at hs <;> cases hs
      · exact h.goes hx ⟨hheld, trivial⟩
      · exact h.ends hx
    · split at hs <;> cases hs
      · exact h.goes hx ⟨hheld, trivial⟩
      · exact h.ends hx
    · cases hs
  · split at hs
    · dsimp only at hs
      split at hs <;> cases hs
      · exact h.ends hx
      · exact h.goes hx ⟨hheld, trivial⟩
    · cases hs
  · split at hs
    · cases hs
      exact h.goes hx ⟨hheld, trivial, trivial⟩
    · cases hs
      exact h.goes hx ⟨hheld, trivial⟩
    · cases hs
  · next st hpoint =>
    rw [hpoint] at hp
    obtain ⟨rowLocks, hl, rfl⟩ := Option.map_eq_some_iff.1 hs
    split
    · exact h.ends hx
    · have hruns : st.Runs { s with rowLocks } t := Statement.Runs.congr hp rfl
      exact h.locks hx hl ⟨fun id hid => Locks.acquireAll_keeps hl (hheld id hid), hruns⟩
  · next st hpoint =>
    rw [hpoint] at hp
    obtain ⟨rowLocks, hl, rfl⟩ := Option.map_eq_some_iff.1 hs
    split
    · exact h.ends hx
    · have hruns : st.Runs { s with rowLocks } t := Statement.Runs.congr hp rfl
      refine h.locks hx hl ⟨fun id hid => Locks.acquireAll_owner hl hid, ?_⟩
      cases st with
      | markCommitted fileID userID result =>
        refine ⟨hruns, fun id hid => ?_⟩
        obtain ⟨r, hr, rfl⟩ := List.mem_map.1 hid
        obtain ⟨hr, hsel⟩ := List.mem_filter.1 hr
        refine ⟨(selectsPending_iff.1 hsel).1, fun f hf hfid => ?_⟩
        rw [Table.eq_of_key hf hr hfid]
        exact (selectsPending_iff.1 hsel).2.2
      | markFailed => exact hp.elim
      | expireStalePending => exact hp.elim
      | softDeleteSubtree => trivial
      | _ => exact ⟨trivial, trivial⟩
  · next st hpoint =>
    rw [hpoint] at hp
    cases hs
    exact h.commits lower hx hp

theorem FileSystem.Inv.begin (h : s.Inv) (ht : t ∉ s.begun) (call : FileCall) :
    Advance s t ({ s with begun := t :: s.begun }.goes t (.start call)) ∧
      ({ s with begun := t :: s.begun }.goes t (.start call)).Inv := by
  have ha : Advance s t ({ s with begun := t :: s.begun }.goes t (.start call)) :=
    ⟨fun _ hg => .kept hg, fun _ _ _ hk => hk, fun _ _ => rfl, .same _, fun _ hid => hid⟩
  refine ⟨ha, h.advance ha rfl List.mem_cons_self (fun u hu => List.mem_cons_of_mem t hu)
    fun y hy => ?_⟩
  cases hy
  refine ⟨fun _ hid => (by cases hid), ?_⟩
  cases call with
  | upload => exact h.blank t ht
  | expireStalePending => exact fun _ _ _ hst => by cases hst
  | softDelete => exact fun _ _ _ hst => by cases hst
  | restore => exact fun _ _ _ hst => by cases hst
  | setStarred => exact fun _ _ _ hst => by cases hst
  | permanentDelete => trivial
  | softDeleteSubtree => trivial
  | restoreSubtree => trivial
  | permanentDeleteSubtree => trivial

theorem FileSystem.Inv.directories (h : s.Inv) {db : Db} (hdb : db.files = s.db.files) :
    (∃ t, Advance s t { s with db }) ∧ { s with db }.Inv := by
  have hsame : ∀ g ∈ db.files.rows, g ∈ s.db.files.rows := fun g hg => hdb ▸ hg
  refine ⟨⟨0, fun g hg => .kept (hsame g hg), fun _ _ _ hk => hk, fun _ _ => rfl, .same _,
    fun _ hid => hid⟩, fun g hg => h.drawn g (hsame g hg), h.created, h.own,
    fun g hg => h.committed g (hsame g hg), fun u record hm => ?_, h.returned, h.blank, h.begun,
    h.jobs.mono fun u x _ hx => hx.congr (fun _ hk => hk) rfl fun g hg _ => .inl (hsame g hg)⟩
  obtain ⟨h1, h2, result, h3, h4, h5⟩ := h.marked u record hm
  exact ⟨h1, h2, result, h3, h4, fun g hg => h5 g (hsame g hg)⟩

/-- **Every step is an advance and keeps the invariant.** -/
theorem FileSystem.Inv.step {a : FileAction} (h : s.Inv) (hs : s.step lower a = some s') :
    (∃ t, Advance s t s') ∧ s'.Inv := by
  cases a with
  | begin t call =>
    simp only [FileSystem.step] at hs
    split at hs
    · cases hs
    · next ht =>
      cases hs
      exact (h.begin ht call).imp_left fun ha => ⟨t, ha⟩
  | next t input =>
    obtain ⟨x, hx, hs⟩ := Option.bind_eq_some_iff.1 hs
    exact (h.next hx hs).imp_left fun ha => ⟨t, ha⟩
  | fail t =>
    obtain ⟨x, hx, rfl⟩ := Option.map_eq_some_iff.1 hs
    exact (h.fails hx).imp_left fun ha => ⟨t, ha⟩
  | abandon t =>
    obtain ⟨x, hx, rfl⟩ := Option.map_eq_some_iff.1 hs
    exact (h.ends hx).imp_left fun ha => ⟨t, ha⟩
  | createDirectory userID name parentID newID now =>
    cases hs
    refine h.directories ?_
    cases hc : serviceCreateDirectory lower s.db userID name parentID newID now with
    | error e => rfl
    | ok out =>
      obtain ⟨row, directories, directoryClosure, -, -, -, -, -, -, hout⟩ :=
        serviceCreateDirectory_ok hc
      rw [Db.after, hout]
  | starDirectory directoryID userID starred now =>
    cases hs
    refine h.directories ?_
    unfold setDirectoryStarred
    dsimp only
    split <;> rfl

/-! ## Runs -/

def FileSystem.Reachable (lower : String → String) : FileSystem → Prop :=
  Runs.Reach (FileSystem.step lower) (fun _ _ => True) (· = .idle .empty)

theorem FileSystem.Reachable.inv (h : s.Reachable lower) : s.Inv :=
  Runs.Reach.inv (P := FileSystem.Inv) h (fun _ hs => hs ▸ .idle)
    fun _ _ _ hi _ hs => (hi.step hs).2

/-- One move of the status machine: the row keeps its status and content, or it was pending. -/
inductive FileRow.Moves (f g : FileRow) : Prop
  | keeps : g.statusPenyimpanan = f.statusPenyimpanan → g.content = f.content → Moves f g
  | fails : f.statusPenyimpanan = .pending → g.statusPenyimpanan = .failed → Moves f g
  | commits : f.statusPenyimpanan = .pending → g.statusPenyimpanan = .committed → Moves f g

/-- A row after a step is a new pending one, or one that was there has moved. -/
theorem RowStep.moves (h : RowStep s t s' g) :
    (g.statusPenyimpanan = .pending ∧ g.idBerkas ∉ s.drawn) ∨
      ∃ f ∈ s.db.files.rows, g.idBerkas = f.idBerkas ∧ f.Moves g := by
  cases h with
  | kept hg => exact .inr ⟨g, hg, rfl, .keeps rfl rfl⟩
  | inserted hp hn => exact .inl ⟨hp, hn⟩
  | written f hf hid _ hs hc => exact .inr ⟨f, hf, hid, .keeps hs hc⟩
  | failed f hf hid _ hp hs => exact .inr ⟨f, hf, hid, .fails hp hs⟩
  | committed f hf hid _ hp hs => exact .inr ⟨f, hf, hid, .commits hp hs⟩

/-- A row that is not pending stays as it is, over any run. -/
theorem settled_run (h : s.Inv) (hf : f ∈ s.db.files.rows)
    (hnp : f.statusPenyimpanan ≠ .pending)
    (hrun : Runs.Reach (FileSystem.step lower) (fun _ _ => True) (· = s) s') :
    ∀ g ∈ s'.db.files.rows, g.idBerkas = f.idBerkas →
      g.statusPenyimpanan = f.statusPenyimpanan ∧ g.content = f.content := by
  have hall : s'.Inv ∧ f.idBerkas ∈ s'.drawn ∧
      ∀ g ∈ s'.db.files.rows, g.idBerkas = f.idBerkas →
        g.statusPenyimpanan = f.statusPenyimpanan ∧ g.content = f.content := by
    refine Runs.Reach.inv (P := fun s' : FileSystem => s'.Inv ∧ f.idBerkas ∈ s'.drawn ∧
      ∀ g ∈ s'.db.files.rows, g.idBerkas = f.idBerkas →
        g.statusPenyimpanan = f.statusPenyimpanan ∧ g.content = f.content) hrun ?_ ?_
    · rintro _ rfl
      refine ⟨h, h.drawn f hf, fun g hg hid => ?_⟩
      rw [Table.eq_of_key hg hf hid]
      exact ⟨rfl, rfl⟩
    · rintro s1 a s2 ⟨hinv, hdrawn, hrow⟩ - hs
      obtain ⟨⟨t, ha⟩, hinv'⟩ := hinv.step hs
      refine ⟨hinv', ha.drawn _ hdrawn, fun g hg hid => ?_⟩
      rcases (ha.rows g hg).moves with ⟨-, hn⟩ | ⟨f', hf', hid', hmoves⟩
      · exact absurd hdrawn (hid ▸ hn)
      · obtain ⟨h1, h2⟩ := hrow f' hf' (hid'.symm.trans hid)
        cases hmoves with
        | keeps hs hc => exact ⟨hs.trans h1, hc.trans h2⟩
        | fails hp => exact absurd (h1.symm.trans hp) hnp
        | commits hp => exact absurd (h1.symm.trans hp) hnp
  exact hall.2.2

/-- **The status machine of `files`.** In every state that interleaved statements reach:
a row is committed exactly when some upload's `MarkCommitted` has returned a record of it, has then
the content that Vault's result of that upload gave, and an upload that has returned success has
returned the record of its own `MarkCommitted`, on the row it created. A step inserts rows as
pending and moves rows from pending to committed or failed only; a row that is not pending keeps its
status and its content for good. -/
theorem file_status_machine (h : s.Reachable lower) :
    (∀ f ∈ s.db.files.rows, (f.statusPenyimpanan = .committed ↔
      ∃ t record, (s.logs t).markCommitted = some record ∧ record.idBerkas = f.idBerkas) ∧
      ∀ t record, (s.logs t).markCommitted = some record → record.idBerkas = f.idBerkas →
        (s.logs t).created = some f.idBerkas ∧
          ∃ result, (s.logs t).vaultResult = some result ∧ f.Holds result) ∧
    (∀ t record, (s.logs t).returned = some record →
      (s.logs t).markCommitted = some record ∧ (s.logs t).created = some record.idBerkas) ∧
    (∀ a s', s.step lower a = some s' → ∀ g ∈ s'.db.files.rows,
      (g.statusPenyimpanan = .pending ∧ g.idBerkas ∉ s.drawn) ∨
        ∃ f ∈ s.db.files.rows, g.idBerkas = f.idBerkas ∧ f.Moves g) ∧
    ∀ s', Runs.Reach (FileSystem.step lower) (fun _ _ => True) (· = s) s' →
      ∀ f ∈ s.db.files.rows, f.statusPenyimpanan ≠ .pending → ∀ g ∈ s'.db.files.rows,
        g.idBerkas = f.idBerkas →
          g.statusPenyimpanan = f.statusPenyimpanan ∧ g.content = f.content := by
  have hinv := h.inv
  refine ⟨fun f hf => ⟨⟨hinv.committed f hf, ?_⟩, fun t record hm hid => ?_⟩,
    fun t record hr => ?_, fun a s' hs g hg => ?_, fun s' hrun f hf hnp => ?_⟩
  · rintro ⟨t, record, hm, hid⟩
    obtain ⟨-, -, result, -, -, hrows⟩ := hinv.marked t record hm
    exact (hrows f hf hid.symm).1
  · obtain ⟨hc, -, result, hv, -, hrows⟩ := hinv.marked t record hm
    exact ⟨hid ▸ hc, result, hv, (hrows f hf hid.symm).2⟩
  · have hm := hinv.returned t record hr
    exact ⟨hm, (hinv.marked t record hm).1⟩
  · obtain ⟨⟨t, ha⟩, -⟩ := hinv.step hs
    exact (ha.rows g hg).moves
  · exact settled_run hinv hf hnp hrun

/-- An upload of a file, with the reaper before its row is committed. -/
def sampleUpload : List FileAction :=
  let i (newID : Uuid) : Input := ⟨5, newID, .ok sampleResult⟩
  [.begin 1 (.upload 1 none "f" ""), .next 1 (i 0), .next 1 (i 0), .next 1 (i 20),
    .begin 2 (.expireStalePending 5), .next 2 (i 0), .next 1 (i 0), .next 1 (i 0), .next 1 (i 0),
    .next 1 (i 0), .next 1 (i 0), .next 1 (i 0)]

theorem file_status_machine_sample : ∃ (s : FileSystem) (record : FileRow), s.Reachable id ∧
    (s.logs 1).returned = some record ∧ (s.logs 1).markCommitted = some record ∧
      (s.logs 1).created = some record.idBerkas := by
  have run : (Runs.exec (FileSystem.step id) (.idle .empty) sampleUpload).any (fun s =>
      (s.logs 1).returned.isSome) = true := by decide
  obtain ⟨s, hs, hret⟩ := (Option.any_eq_true _ _).1 run
  have hr : s.Reachable id := Runs.Reach.exec (.init rfl) (fun _ _ _ => trivial) hs
  obtain ⟨record, hrec⟩ := Option.isSome_iff_exists.1 hret
  exact ⟨s, record, hr, hrec, (file_status_machine hr).2.1 1 record hrec⟩

end HashBox.Api
