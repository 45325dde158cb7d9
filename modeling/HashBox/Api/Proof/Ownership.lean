import HashBox.Api.Proof.Effects

/-!
# Tenant isolation

Some statements of the subtree transactions name no user. They stay within one user's rows because
of `Owned`: the two ends of a closure row are directories of one user, and a file's directory is one
of the file's user. Every call keeps `Owned` (`Effect.owned`), and a call of one user leaves the
files, directories and closure rows of every other user as they are (`tenant_isolation`).
-/

namespace HashBox.Api

variable {lower : String → String} {x : Scope} {m m' : Metadata}

/-! ## Who owns what -/

def Metadata.owners (m : Metadata) : List (Uuid × Uuid) :=
  m.directories.rows.map fun d => (d.idDirektori, d.idPengguna)

theorem owns_iff {u id : Uuid} : m.owns u id = true ↔ (id, u) ∈ m.owners := by
  simp only [Metadata.owns, Metadata.owners, List.any_eq_true, List.mem_map, Prod.mk.injEq,
    Bool.and_eq_true, beq_iff_eq]

theorem owns_unique {u v id : Uuid} (hu : m.owns u id = true) (hv : m.owns v id = true) :
    u = v := by
  obtain ⟨d, hd, hdu⟩ := List.mem_map.1 (owns_iff.1 hu)
  obtain ⟨d', hd', hdv⟩ := List.mem_map.1 (owns_iff.1 hv)
  simp only [Prod.mk.injEq] at hdu hdv
  have : d = d' := Table.eq_of_key hd hd' (hdu.1.trans hdv.1.symm)
  rw [← hdu.2, ← hdv.2, this]

theorem owns_of_live {u id : Uuid} (h : m.ownsLive u id = true) : m.owns u id = true := by
  simp only [Metadata.ownsLive, Metadata.owns, List.any_eq_true, Bool.and_eq_true] at h ⊢
  obtain ⟨d, hd, h1, -⟩ := h
  exact ⟨d, hd, h1⟩

theorem owns_of_deleted {u id : Uuid} (h : m.ownsDeleted u id = true) : m.owns u id = true := by
  simp only [Metadata.ownsDeleted, Metadata.owns, List.any_eq_true, Bool.and_eq_true] at h ⊢
  obtain ⟨d, hd, h1, -⟩ := h
  exact ⟨d, hd, h1⟩

theorem mem_subtree {root id : Uuid} :
    id ∈ m.subtree root ↔ ∃ c ∈ m.directoryClosure.rows, c.idInduk = root ∧ c.idTurunan = id := by
  simp [Metadata.subtree, and_assoc]

theorem within_iff {f : FileRow} {ids : List Uuid} :
    f.within ids = true ↔ ∃ d, f.idDirektori = some d ∧ d ∈ ids := by
  simp only [FileRow.within, Option.any_eq_true, decide_eq_true_eq]

/-- Rows point at directories of their own user. -/
structure Owned (m : Metadata) : Prop where
  closure : ∀ c ∈ m.directoryClosure.rows,
    ∃ u, m.owns u c.idInduk = true ∧ m.owns u c.idTurunan = true
  files : ∀ f ∈ m.files.rows, ∀ d, f.idDirektori = some d → m.owns f.idPengguna d = true

theorem Owned.empty : Owned Metadata.empty where
  closure _ hc := by cases hc
  files _ hf := by cases hf

theorem Owned.subtree (h : Owned m) {u root id : Uuid} (hr : m.owns u root = true)
    (hid : id ∈ m.subtree root) : m.owns u id = true := by
  obtain ⟨c, hc, rfl, rfl⟩ := mem_subtree.1 hid
  obtain ⟨v, hv, hv'⟩ := h.closure c hc
  rwa [owns_unique hr hv]

theorem Owned.within (h : Owned m) {u root : Uuid} (hr : m.owns u root = true) {f : FileRow}
    (hf : f ∈ m.files.rows) (hw : f.within (m.subtree root) = true) : f.idPengguna = u := by
  obtain ⟨d, hd, hsub⟩ := within_iff.1 hw
  exact owns_unique (h.files f hf d hd) (h.subtree hr hsub)

theorem owners_updateRows {p : DirectoryRow → Bool} {f : DirectoryRow → DirectoryRow}
    (ho : m'.directories.rows = Table.updateRows p f m.directories.rows)
    (hf : ∀ d, (f d).idDirektori = d.idDirektori ∧ (f d).idPengguna = d.idPengguna) :
    m'.owners = m.owners := by
  rw [Metadata.owners, ho, Table.map_updateRows fun d => by rw [(hf d).1, (hf d).2]]
  rfl

theorem owners_trashSubtree (ids : List Uuid) (u : Uuid) (now : Time) :
    (m.trashSubtree ids u now).owners = m.owners :=
  owners_updateRows rfl fun _ => ⟨rfl, rfl⟩

theorem owners_untrashSubtree (ids : List Uuid) (u : Uuid) :
    (m.untrashSubtree ids u).owners = m.owners :=
  owners_updateRows rfl fun _ => ⟨rfl, rfl⟩

theorem owns_congr (ho : m'.owners = m.owners) (u id : Uuid) : m'.owns u id = m.owns u id := by
  rw [Bool.eq_iff_iff, owns_iff, owns_iff, ho]

/-- The invariant only reads the owners, the closure and the files' owner and directory. -/
theorem Owned.congr (h : Owned m) (ho : m'.owners = m.owners)
    (hc : m'.directoryClosure = m.directoryClosure)
    (hf : ∀ f ∈ m'.files.rows, ∃ g ∈ m.files.rows,
      f.idPengguna = g.idPengguna ∧ f.idDirektori = g.idDirektori) : Owned m' where
  closure c hmem := by
    obtain ⟨u, h1, h2⟩ := h.closure c (hc ▸ hmem)
    exact ⟨u, owns_congr ho u _ ▸ h1, owns_congr ho u _ ▸ h2⟩
  files f hmem d hd := by
    obtain ⟨g, hg, h1, h2⟩ := hf f hmem
    rw [owns_congr ho, h1]
    exact h.files g hg d (h2 ▸ hd)

theorem mem_updateFiles {p : FileRow → Bool} {f : FileRow → FileRow} {rows : List FileRow}
    (hkeep : ∀ r, (f r).idPengguna = r.idPengguna ∧ (f r).idDirektori = r.idDirektori) :
    ∀ r ∈ Table.updateRows p f rows, ∃ g ∈ rows,
      r.idPengguna = g.idPengguna ∧ r.idDirektori = g.idDirektori := by
  intro r hr
  rcases Table.mem_updateRows.1 hr with ⟨g, hg, -, rfl⟩ | ⟨hr, -⟩
  · exact ⟨g, hg, hkeep g⟩
  · exact ⟨r, hr, rfl, rfl⟩

/-! ## The invariant is kept -/

theorem Owned.trashSubtree (h : Owned m) (ids : List Uuid) (u : Uuid) (now : Time) :
    Owned (m.trashSubtree ids u now) :=
  h.congr (owners_trashSubtree _ _ _) rfl (mem_updateFiles fun _ => ⟨rfl, rfl⟩)

theorem Owned.untrashSubtree (h : Owned m) (ids : List Uuid) (u : Uuid) :
    Owned (m.untrashSubtree ids u) :=
  h.congr (owners_untrashSubtree _ _) rfl (mem_updateFiles fun _ => ⟨rfl, rfl⟩)

theorem Owned.addDirectory (h : Owned m) {row : DirectoryRow} {parentID : Option Uuid}
    {directories : Table DirectoryRow.idDirektori}
    {directoryClosure : Table fun c : ClosureRow => (c.idInduk, c.idTurunan)}
    (hp : ∀ p, parentID = some p → m.owns row.idPengguna p = true)
    (hd : m.directories.insert [row] = some directories)
    (hc : m.directoryClosure.insert (m.newClosureRows row.idDirektori parentID) =
      some directoryClosure) : Owned { m with directories, directoryClosure } := by
  have hold : ∀ u id, m.owns u id = true →
      Metadata.owns { m with directories, directoryClosure } u id = true := by
    intro u id ho
    simp only [owns_iff, Metadata.owners] at ho ⊢
    rw [Table.insert_rows hd, List.map_append]
    exact List.mem_append_left _ ho
  have hnew : Metadata.owns { m with directories, directoryClosure } row.idPengguna
      row.idDirektori = true := by
    simp [owns_iff, Metadata.owners, Table.insert_rows hd]
  refine ⟨fun c hc' => ?_, fun f hf d hfd => hold _ _ (h.files f hf d hfd)⟩
  rw [Table.insert_rows hc, List.mem_append] at hc'
  rcases hc' with hc' | hc'
  · obtain ⟨u, h1, h2⟩ := h.closure c hc'
    exact ⟨u, hold u _ h1, hold u _ h2⟩
  · cases parentID with
    | none =>
      rw [Metadata.newClosureRows, List.mem_singleton] at hc'
      subst hc'
      exact ⟨_, hnew, hnew⟩
    | some p =>
      simp only [Metadata.newClosureRows, List.mem_append, List.mem_map, List.mem_filter,
        beq_iff_eq, List.mem_singleton] at hc'
      rcases hc' with ⟨a, ⟨ha, rfl⟩, rfl⟩ | rfl
      · -- an ancestor of the parent has the parent's owner
        obtain ⟨u, h1, h2⟩ := h.closure a ha
        have : u = row.idPengguna := owns_unique h2 (hp _ rfl)
        exact ⟨row.idPengguna, hold _ _ (this ▸ h1), hnew⟩
      · exact ⟨_, hnew, hnew⟩

theorem owns_remove {u : Uuid} {ids : List Uuid} {v id : Uuid} :
    Metadata.owns ((m.removeFiles ids).removeDirectories ids u) v id = true ↔
      m.owns v id = true ∧ ¬ (id ∈ ids ∧ v = u) := by
  simp only [owns_iff, Metadata.owners, Metadata.removeFiles, Metadata.removeDirectories,
    List.mem_map, Table.mem_deleteWhere, Prod.mk.injEq, Bool.and_eq_false_iff,
    decide_eq_false_iff_not, beq_eq_false_iff_ne]
  constructor
  · rintro ⟨d, ⟨hd, hn⟩, rfl, rfl⟩
    exact ⟨⟨d, hd, rfl, rfl⟩, fun h => hn.elim (absurd h.1) (absurd h.2)⟩
  · rintro ⟨⟨d, hd, rfl, rfl⟩, hn⟩
    refine ⟨d, ⟨hd, ?_⟩, rfl, rfl⟩
    by_cases h1 : d.idDirektori ∈ ids
    · exact .inr fun h2 => hn ⟨h1, h2⟩
    · exact .inl h1

theorem Owned.remove (h : Owned m) (u : Uuid) (ids : List Uuid) :
    Owned ((m.removeFiles ids).removeDirectories ids u) where
  closure c hc := by
    simp only [Metadata.removeFiles, Metadata.removeDirectories, Table.mem_deleteWhere,
      Bool.or_eq_false_iff, decide_eq_false_iff_not] at hc
    obtain ⟨v, h1, h2⟩ := h.closure c hc.1
    exact ⟨v, owns_remove.2 ⟨h1, fun hn => hc.2.1 hn.1⟩, owns_remove.2 ⟨h2, fun hn => hc.2.2 hn.1⟩⟩
  files f hf d hd := by
    simp only [Metadata.removeFiles, Metadata.removeDirectories, Table.mem_deleteWhere] at hf
    refine owns_remove.2 ⟨h.files f hf.1 d hd, fun hn => ?_⟩
    have := within_iff.2 ⟨d, hd, hn.1⟩
    simp [this] at hf

theorem Owned.addFile (h : Owned m) {row : FileRow} {files : Table FileRow.idBerkas}
    (hrow : ∀ d, row.idDirektori = some d → m.owns row.idPengguna d = true)
    (hf : m.files.insert [row] = some files) : Owned { m with files } where
  closure := h.closure
  files f hmem d hd := by
    rw [Table.insert_rows hf, List.mem_append, List.mem_singleton] at hmem
    rcases hmem with hmem | rfl
    · exact h.files f hmem d hd
    · exact hrow d hd

theorem Effect.owned (h : Owned m) (he : Effect lower x m m') : Owned m' := by
  cases he with
  | same => exact h
  | addDirectory row parentID directories directoryClosure _ _ hp hd hc =>
    exact h.addDirectory (fun p hpp => owns_of_live (hp p hpp)) hd hc
  | starDirectory p t _ =>
    exact h.congr (owners_updateRows rfl fun _ => ⟨rfl, rfl⟩) rfl fun f hf => ⟨f, hf, rfl, rfl⟩
  | trash directoryID userID now _ _ => exact h.trashSubtree _ _ _
  | untrash directoryID userID _ _ _ _ => exact h.untrashSubtree _ _
  | remove directoryID userID _ _ _ => exact h.remove userID _
  | addFile row files _ _ hrow hf _ => exact h.addFile (fun d hd => owns_of_live (hrow d hd)) hf
  | updateFile p f hf _ hkeep _ _ _ _ => exact h.congr rfl rfl (mem_updateFiles hkeep)
  | removeFile p _ _ =>
    exact h.congr rfl rfl fun f hf => ⟨f, (Table.mem_deleteWhere.1 hf).1, rfl, rfl⟩

theorem Reachable.owned {db : Db} (h : Reachable lower db) : Owned db.toMetadata :=
  Runs.Reach.inv (P := fun db => Owned db.toMetadata) h (fun _ hs => hs ▸ Owned.empty)
    fun _ _ _ ho _ hs => (step_effect hs).owned ho

/-! ## Isolation -/

def Metadata.filesOf (m : Metadata) (userID : Uuid) : List FileRow :=
  m.files.rows.filter fun f => f.idPengguna == userID

def Metadata.directoriesOf (m : Metadata) (userID : Uuid) : List DirectoryRow :=
  m.directories.rows.filter fun d => d.idPengguna == userID

def Metadata.closureOf (m : Metadata) (userID : Uuid) : List ClosureRow :=
  m.directoryClosure.rows.filter fun c => m.owns userID c.idInduk || m.owns userID c.idTurunan

structure SameFor (userID : Uuid) (m m' : Metadata) : Prop where
  files : m'.filesOf userID = m.filesOf userID
  directories : m'.directoriesOf userID = m.directoriesOf userID
  closure : m'.closureOf userID = m.closureOf userID

theorem SameFor.of_owners {v : Uuid} (ho : m'.owners = m.owners)
    (hc : m'.directoryClosure = m.directoryClosure) (hf : m'.filesOf v = m.filesOf v)
    (hd : m'.directoriesOf v = m.directoriesOf v) : SameFor v m m' :=
  ⟨hf, hd, by simp only [Metadata.closureOf, owns_congr ho, hc]⟩

section
variable {u v : Uuid}

theorem filter_updateFiles (hne : v ≠ u) {p : FileRow → Bool} {f : FileRow → FileRow}
    {rows : List FileRow} (hown : ∀ r, (f r).idPengguna = r.idPengguna)
    (hp : ∀ r ∈ rows, p r = true → r.idPengguna = u) :
    (Table.updateRows p f rows).filter (fun r => r.idPengguna == v) =
      rows.filter fun r => r.idPengguna == v :=
  Table.filter_updateRows fun r hr hpr => by simp [hown r, hp r hr hpr, hne.symm]

theorem filter_updateDirectories (hne : v ≠ u) {p : DirectoryRow → Bool}
    {f : DirectoryRow → DirectoryRow} {rows : List DirectoryRow}
    (hown : ∀ d, (f d).idPengguna = d.idPengguna) (hp : ∀ d, p d = true → d.idPengguna = u) :
    (Table.updateRows p f rows).filter (fun d => d.idPengguna == v) =
      rows.filter fun d => d.idPengguna == v :=
  Table.filter_updateRows fun d _ hpd => by simp [hown d, hp d hpd, hne.symm]

theorem SameFor.addDirectory (h : Owned m) (hne : v ≠ u) {row : DirectoryRow}
    {parentID : Option Uuid} {directories : Table DirectoryRow.idDirektori}
    {directoryClosure : Table fun c : ClosureRow => (c.idInduk, c.idTurunan)}
    (hu : row.idPengguna = u) (hp : ∀ p, parentID = some p → m.owns row.idPengguna p = true)
    (hd : m.directories.insert [row] = some directories)
    (hc : m.directoryClosure.insert (m.newClosureRows row.idDirektori parentID) =
      some directoryClosure) : SameFor v m { m with directories, directoryClosure } := by
  have howns : ∀ id, Metadata.owns { m with directories, directoryClosure } v id = m.owns v id := by
    intro id
    rw [Bool.eq_iff_iff, owns_iff, owns_iff]
    simp only [Metadata.owners, Table.insert_rows hd, List.map_append, List.mem_append,
      List.map_cons, List.map_nil, List.mem_singleton, Prod.mk.injEq]
    refine ⟨fun ho => ho.resolve_right fun e => hne (e.2.trans hu), .inl⟩
  have hrow : m.owns v row.idDirektori = false := by
    rw [Bool.eq_false_iff]
    intro ho
    obtain ⟨d, hd', he⟩ := List.mem_map.1 (owns_iff.1 ho)
    exact Table.insert_new hd hd' (List.mem_singleton_self row) (Prod.mk.inj he).1
  refine ⟨rfl, ?_, ?_⟩
  · simp [Metadata.directoriesOf, Table.insert_rows hd, hu, hne.symm]
  · simp only [Metadata.closureOf, howns, Table.insert_rows hc, List.filter_append]
    -- none of the rows inserted touches a directory of `v`
    refine List.append_right_eq_self.2 (List.filter_eq_nil_iff.2 fun c hcn => ?_)
    cases parentID with
    | none =>
      rw [Metadata.newClosureRows, List.mem_singleton] at hcn
      simp [hcn, hrow]
    | some p =>
      simp only [Metadata.newClosureRows, List.mem_append, List.mem_map, List.mem_filter,
        beq_iff_eq, List.mem_singleton] at hcn
      rcases hcn with ⟨a, ⟨ha, rfl⟩, rfl⟩ | rfl
      · obtain ⟨w, h1, h2⟩ := h.closure a ha
        have hwu : w = u := (owns_unique h2 (hp _ rfl)).trans hu
        simp only [hrow, Bool.or_false, Bool.not_eq_true]
        rw [Bool.eq_false_iff]
        exact fun ho => hne ((owns_unique ho h1).trans hwu)
      · simp [hrow]

theorem SameFor.remove (h : Owned m) (hne : v ≠ u) {root : Uuid} (hr : m.owns u root = true) :
    SameFor v m ((m.removeFiles (m.subtree root)).removeDirectories (m.subtree root) u) where
  files := Table.filter_deleteWhere fun f hf hw => by simp [h.within hr hf hw, hne.symm]
  directories := Table.filter_deleteWhere fun d _ hd => by
    rw [Bool.and_eq_true, beq_iff_eq] at hd
    simp [hd.2, hne.symm]
  closure := by
    have howns : ∀ id, Metadata.owns ((m.removeFiles (m.subtree root)).removeDirectories
        (m.subtree root) u) v id = m.owns v id := by
      intro id
      rw [Bool.eq_iff_iff, owns_remove]
      exact ⟨And.left, fun ho => ⟨ho, fun hn => hne hn.2⟩⟩
    simp only [Metadata.closureOf, howns]
    refine Table.filter_deleteWhere fun c hc hsub => ?_
    -- a row that touches the subtree has both ends with `u`
    obtain ⟨w, h1, h2⟩ := h.closure c hc
    have hwu : w = u := by
      rw [Bool.or_eq_true, decide_eq_true_eq, decide_eq_true_eq] at hsub
      rcases hsub with hs | hs
      · exact owns_unique h1 (h.subtree hr hs)
      · exact owns_unique h2 (h.subtree hr hs)
    rw [Bool.or_eq_false_iff, Bool.eq_false_iff, Bool.eq_false_iff]
    exact ⟨fun ho => hne ((owns_unique ho h1).trans hwu),
      fun ho => hne ((owns_unique ho h2).trans hwu)⟩

theorem Effect.sameFor (h : Owned m) (hne : v ≠ u) (hw : x.who = some u)
    (he : Effect lower x m m') : SameFor v m m' := by
  cases he with
  | same => exact ⟨rfl, rfl, rfl⟩
  | addDirectory row parentID directories directoryClosure hrow _ hp hd hc =>
    exact .addDirectory h hne (Option.some.inj (hrow.symm.trans hw))
      (fun p hpp => owns_of_live (hp p hpp)) hd hc
  | starDirectory p t hp =>
    refine .of_owners (owners_updateRows rfl fun _ => ⟨rfl, rfl⟩) rfl rfl
      (filter_updateDirectories hne (fun _ => rfl) fun d hd => ?_)
    exact Option.some.inj ((hp d hd).symm.trans hw)
  | trash directoryID userID now hw' hlive =>
    cases hw'.symm.trans hw
    refine .of_owners (owners_trashSubtree _ _ _) rfl
      (filter_updateFiles hne (fun _ => rfl) fun f hf hin => ?_)
      (filter_updateDirectories hne (fun _ => rfl) fun d hd => ?_)
    · exact h.within (owns_of_live hlive) hf hin
    · rw [Bool.and_eq_true, beq_iff_eq] at hd
      exact hd.2
  | untrash directoryID userID hw' _ hdel _ =>
    cases hw'.symm.trans hw
    refine .of_owners (owners_untrashSubtree _ _) rfl
      (filter_updateFiles hne (fun _ => rfl) fun f hf hin => ?_)
      (filter_updateDirectories hne (fun _ => rfl) fun d hd => ?_)
    · rw [Bool.and_eq_true] at hin
      exact h.within (owns_of_deleted hdel) hf hin.1
    · rw [Bool.and_eq_true, beq_iff_eq] at hd
      exact hd.2
  | remove directoryID userID hw' _ hdel =>
    cases hw'.symm.trans hw
    exact .remove h hne (owns_of_deleted hdel)
  | addFile row files hw' _ _ hf _ =>
    refine ⟨?_, rfl, rfl⟩
    simp [Metadata.filesOf, Table.insert_rows hf, Option.some.inj (hw'.symm.trans hw), hne.symm]
  | updateFile p f hf hp hkeep _ _ _ _ =>
    exact ⟨filter_updateFiles hne (fun r => (hkeep r).1) fun r _ hpr => hp r hpr u hw, rfl, rfl⟩
  | removeFile p hp _ =>
    refine ⟨Table.filter_deleteWhere fun r _ hpr => ?_, rfl, rfl⟩
    simp [Option.some.inj ((hp r hpr).symm.trans hw), hne.symm]

/-- **A call changes no row of another user.** -/
theorem tenant_isolation {db : Db} (h : Reachable lower db) {u v : Uuid} (hne : v ≠ u) (now : Time)
    (c : Call) :
    (runCall lower db u now c).filesOf v = db.filesOf v ∧
      (runCall lower db u now c).directoriesOf v = db.directoriesOf v ∧
      (runCall lower db u now c).closureOf v = db.closureOf v := by
  have hs : SameFor v db.toMetadata (runCall lower db u now c).toMetadata :=
    (runCall_effect db u now c).sameFor h.owned hne rfl
  exact ⟨hs.files, hs.directories, hs.closure⟩

/-- Users 1 and 2 with a directory each and a pending file in it. -/
def twoTenants : List (Event × Time) :=
  [(.call 1 (.createDirectory "a" none 10), 1), (.call 2 (.createDirectory "b" none 20), 2),
   (.call 1 (.uploadStart (some 10) "f" "" 11), 3), (.call 2 (.uploadStart (some 20) "f" "" 21), 4)]

theorem tenant_isolation_sample :
    ∃ db, Reachable id db ∧ (db.filesOf 2).length = 1 ∧
      (runCall id db 1 5 (.softDeleteDirectory 10)).files ≠ db.files ∧
      (runCall id db 1 5 (.softDeleteDirectory 10)).filesOf 2 = db.filesOf 2 ∧
      (runCall id db 1 5 (.softDeleteDirectory 10)).directoriesOf 2 = db.directoriesOf 2 ∧
      (runCall id db 1 5 (.softDeleteDirectory 10)).closureOf 2 = db.closureOf 2 := by
  have h : (Runs.exec (step id) Db.empty twoTenants).any (fun db =>
      decide ((db.filesOf 2).length = 1) &&
        decide ((runCall id db 1 5 (.softDeleteDirectory 10)).files ≠ db.files)) = true := by decide
  obtain ⟨db, hdb, hf⟩ := (Option.any_eq_true _ _).1 h
  rw [Bool.and_eq_true, decide_eq_true_eq, decide_eq_true_eq] at hf
  have hr : Reachable id db := Runs.Reach.exec (.init rfl) (fun _ _ _ => trivial) hdb
  exact ⟨db, hr, hf.1, hf.2, tenant_isolation hr (by decide) 5 (.softDeleteDirectory 10)⟩

end

end HashBox.Api
