import HashBox.Lib.Forest
import HashBox.Api.Proof.Ownership

/-!
# What a permanent delete destroys

`directory_closure` is the ancestor relation of a forest (`Tree`), in every reachable state. Trash
is hereditary (`Hereditary` marks, and a file in a directory in trash is in trash) as long as no
directory is restored below one in trash: `PermanentDeleteSubtree` then destroys trash only
(`permanentDelete_trash`). `RestoreSubtree` does not look at the parent, and a directory restored
below one in trash is destroyed with it (`permanentDelete_live`).
-/

namespace HashBox.Api

open Forest

variable {lower : String → String} {x : Scope} {m m' : Metadata}

/-- `a` is `d` or an ancestor of `d`. -/
def Metadata.le (m : Metadata) (a d : Uuid) : Prop := d ∈ m.subtree a

def Metadata.trashed (m : Metadata) : Set Uuid :=
  {id | ∃ d ∈ m.directories.rows, d.idDirektori = id ∧ d.live = false}

theorem le_iff {a d : Uuid} :
    m.le a d ↔ ∃ c ∈ m.directoryClosure.rows, c.idInduk = a ∧ c.idTurunan = d := mem_subtree

theorem mem_trashed {d : DirectoryRow} (hd : d ∈ m.directories.rows) :
    d.idDirektori ∈ m.trashed ↔ d.live = false := by
  constructor
  · rintro ⟨d', hd', hid, hdead⟩
    rwa [← Table.eq_of_key hd' hd hid]
  · exact fun h => ⟨d, hd, rfl, h⟩

theorem not_trashed_of_ownsLive {u id : Uuid} (h : m.ownsLive u id = true) : id ∉ m.trashed := by
  simp only [Metadata.ownsLive, List.any_eq_true, Bool.and_eq_true, beq_iff_eq] at h
  obtain ⟨d, hd, ⟨rfl, -⟩, hlive⟩ := h
  simp [mem_trashed hd, hlive]

theorem trashed_of_ownsDeleted {u id : Uuid} (h : m.ownsDeleted u id = true) : id ∈ m.trashed := by
  simp only [Metadata.ownsDeleted, List.any_eq_true, Bool.and_eq_true, beq_iff_eq] at h
  obtain ⟨d, hd, ⟨rfl, -⟩, hdead⟩ := h
  exact (mem_trashed hd).2 (by simpa using hdead)

theorem owns_of_mem {d : DirectoryRow} (hd : d ∈ m.directories.rows) :
    m.owns d.idPengguna d.idDirektori = true :=
  owns_iff.2 (List.mem_map_of_mem hd)

theorem Owned.subtree_row (h : Owned m) {u root : Uuid} (hr : m.owns u root = true)
    {d : DirectoryRow} (hd : d ∈ m.directories.rows) (hs : d.idDirektori ∈ m.subtree root) :
    d.idPengguna = u :=
  owns_unique (owns_of_mem hd) (h.subtree hr hs)

/-! ## The closure is a forest -/

structure Tree (m : Metadata) : Prop where
  forest : IsForest m.le
  self : ∀ d ∈ m.directories.rows, m.le d.idDirektori d.idDirektori

theorem Tree.empty : Tree Metadata.empty where
  forest := {
    trans := fun h => by cases h
    linear := fun h => by cases h }
  self _ hd := by cases hd

section
variable {row : DirectoryRow} {parentID : Option Uuid}
  {directories : Table DirectoryRow.idDirektori}
  {directoryClosure : Table fun c : ClosureRow => (c.idInduk, c.idTurunan)}

/-- `Create` adds a leaf. -/
theorem le_addDirectory (directories : Table DirectoryRow.idDirektori)
    (hc : m.directoryClosure.insert (m.newClosureRows row.idDirektori parentID) =
      some directoryClosure) (a d : Uuid) :
    Metadata.le { m with directories, directoryClosure } a d ↔
      addLeaf m.le row.idDirektori parentID a d := by
  simp only [le_iff, addLeaf, Table.insert_rows hc, List.mem_append]
  cases parentID with
  | none =>
    simp only [Metadata.newClosureRows, List.mem_singleton]
    constructor
    · rintro ⟨c, hc | rfl, rfl, rfl⟩
      · exact .inl ⟨c, hc, rfl, rfl⟩
      · exact .inr ⟨rfl, .inl rfl⟩
    · rintro (⟨c, hc, rfl, rfl⟩ | ⟨rfl, rfl | ⟨p, hp, -⟩⟩)
      · exact ⟨c, .inl hc, rfl, rfl⟩
      · exact ⟨_, .inr rfl, rfl, rfl⟩
      · cases hp
  | some p =>
    simp only [Metadata.newClosureRows, List.mem_append, List.mem_map, List.mem_filter, beq_iff_eq,
      List.mem_singleton]
    constructor
    · rintro ⟨c, hc | ⟨e, ⟨he, rfl⟩, rfl⟩ | rfl, rfl, rfl⟩
      · exact .inl ⟨c, hc, rfl, rfl⟩
      · exact .inr ⟨rfl, .inr ⟨_, rfl, e, he, rfl, rfl⟩⟩
      · exact .inr ⟨rfl, .inl rfl⟩
    · rintro (⟨c, hc, rfl, rfl⟩ | ⟨rfl, rfl | ⟨q, hq, e, he, rfl, rfl⟩⟩)
      · exact ⟨c, .inl hc, rfl, rfl⟩
      · exact ⟨_, .inr (.inr rfl), rfl, rfl⟩
      · cases hq
        exact ⟨_, .inr (.inl ⟨e, ⟨he, rfl⟩, rfl⟩), rfl, rfl⟩

theorem Owned.fresh (h : Owned m) (hd : m.directories.insert [row] = some directories) :
    Fresh m.le row.idDirektori := by
  have hno : ∀ u, m.owns u row.idDirektori ≠ true := by
    intro u ho
    obtain ⟨d, hd', he⟩ := List.mem_map.1 (owns_iff.1 ho)
    exact Table.insert_new hd hd' (List.mem_singleton_self row) (Prod.mk.inj he).1
  intro a
  constructor
  · intro hle
    obtain ⟨c, hc, hc1, -⟩ := le_iff.1 hle
    obtain ⟨u, h1, -⟩ := h.closure c hc
    exact hno u (hc1 ▸ h1)
  · intro hle
    obtain ⟨c, hc, -, hc2⟩ := le_iff.1 hle
    obtain ⟨u, -, h2⟩ := h.closure c hc
    exact hno u (hc2 ▸ h2)

end

/-- `PermanentDeleteSubtree` cuts the subtree out. -/
theorem le_remove (ids : List Uuid) (u a d : Uuid) :
    Metadata.le ((m.removeFiles ids).removeDirectories ids u) a d ↔
      outside m.le {id | id ∈ ids} a d := by
  simp only [le_iff, outside, Metadata.removeFiles, Metadata.removeDirectories,
    Table.mem_deleteWhere, Bool.or_eq_false_iff, decide_eq_false_iff_not, Set.mem_ofPred_eq]
  constructor
  · rintro ⟨c, ⟨hc, h1, h2⟩, rfl, rfl⟩
    exact ⟨⟨c, hc, rfl, rfl⟩, h1, h2⟩
  · rintro ⟨⟨c, hc, rfl, rfl⟩, h1, h2⟩
    exact ⟨c, ⟨hc, h1, h2⟩, rfl, rfl⟩

theorem Tree.of_updateRows (h : Tree m) {p : DirectoryRow → Bool} {f : DirectoryRow → DirectoryRow}
    (hd : m'.directories.rows = Table.updateRows p f m.directories.rows)
    (hf : ∀ d, (f d).idDirektori = d.idDirektori)
    (hc : m'.directoryClosure = m.directoryClosure) : Tree m' := by
  have hle : m'.le = m.le := by
    funext a d
    simp only [Metadata.le, Metadata.subtree, hc]
  refine ⟨hle ▸ h.forest, fun d hmem => ?_⟩
  rw [hle]
  rw [hd] at hmem
  rcases Table.mem_updateRows.1 hmem with ⟨q, hq, -, rfl⟩ | ⟨hd, -⟩
  · exact hf q ▸ h.self q hq
  · exact h.self d hd

theorem Effect.tree (ho : Owned m) (h : Tree m) (he : Effect lower x m m') : Tree m' := by
  cases he with
  | same => exact h
  | addDirectory row parentID directories directoryClosure _ _ _ hd hc =>
    have hle := funext fun a => funext fun d =>
      propext (le_addDirectory directories hc a d)
    refine ⟨hle ▸ h.forest.addLeaf (ho.fresh hd) parentID, fun d hmem => ?_⟩
    rw [le_addDirectory directories hc]
    have hmem : d ∈ directories.rows := hmem
    rw [Table.insert_rows hd, List.mem_append, List.mem_singleton] at hmem
    rcases hmem with hmem | rfl
    · exact .inl (h.self d hmem)
    · exact .inr ⟨rfl, .inl rfl⟩
  | starDirectory p t _ => exact h.of_updateRows rfl (fun _ => rfl) rfl
  | trash directoryID userID now _ _ => exact h.of_updateRows rfl (fun _ => rfl) rfl
  | untrash directoryID userID _ _ _ _ => exact h.of_updateRows rfl (fun _ => rfl) rfl
  | remove directoryID userID _ _ hdel =>
    have hle := funext fun a => funext fun d =>
      propext (le_remove (m := m) (m.subtree directoryID) userID a d)
    refine ⟨hle ▸ h.forest.outside _, fun d hmem => ?_⟩
    simp only [Metadata.removeFiles, Metadata.removeDirectories, Table.mem_deleteWhere] at hmem
    -- a row that is left is not in the subtree, which is all the user's
    have hout : d.idDirektori ∉ m.subtree directoryID := fun hs => by
      simp [hs, ho.subtree_row (owns_of_deleted hdel) hmem.1 hs] at hmem
    exact (le_remove _ _ _ _).2 ⟨h.self d hmem.1, hout, hout⟩
  | addFile row files _ _ _ _ _ => exact ⟨h.forest, h.self⟩
  | updateFile p f hf _ _ _ _ _ _ => exact ⟨h.forest, h.self⟩
  | removeFile p _ _ => exact ⟨h.forest, h.self⟩

/-! ## Trash is hereditary -/

structure TrashClosed (m : Metadata) : Prop where
  directories : Hereditary m.le m.trashed
  files : ∀ f ∈ m.files.rows, ∀ d ∈ m.trashed, f.idDirektori = some d → f.dihapusPada.isSome = true

theorem TrashClosed.empty : TrashClosed Metadata.empty where
  directories _ _ h := by cases h
  files _ hf := by cases hf

theorem mem_trashed_updateRows {p : DirectoryRow → Bool} {f : DirectoryRow → DirectoryRow}
    (hd : m'.directories.rows = Table.updateRows p f m.directories.rows)
    (hf : ∀ d, (f d).idDirektori = d.idDirektori) {id : Uuid} :
    id ∈ m'.trashed ↔ ∃ d ∈ m.directories.rows, d.idDirektori = id ∧
      (if p d then (f d).live else d.live) = false := by
  simp only [Metadata.trashed, Set.mem_ofPred_eq, hd, Table.mem_updateRows]
  constructor
  · rintro ⟨d, ⟨q, hq, hp, rfl⟩ | ⟨hd, hp⟩, rfl, hdead⟩
    · exact ⟨q, hq, (hf q).symm, by simpa [hp] using hdead⟩
    · exact ⟨d, hd, rfl, by simpa [hp] using hdead⟩
  · rintro ⟨d, hd, rfl, hdead⟩
    by_cases hp : p d = true
    · exact ⟨f d, .inl ⟨d, hd, hp, rfl⟩, hf d, by simpa [hp] using hdead⟩
    · exact ⟨d, .inr ⟨hd, by simpa using hp⟩, rfl, by simpa [hp] using hdead⟩

section
variable {root u : Uuid} {now : Time}

theorem trashed_trashSubtree (ho : Owned m) (hr : m.owns u root = true) :
    (m.trashSubtree (m.subtree root) u now).trashed = m.trashed ∪ Forest.subtree m.le root := by
  ext id
  rw [mem_trashed_updateRows (m := m) rfl (by intro _; rfl)]
  constructor
  · rintro ⟨d, hd, rfl, hdead⟩
    by_cases hs : d.idDirektori ∈ m.subtree root
    · exact .inr hs
    · exact .inl ((mem_trashed hd).2 (by simpa [hs] using hdead))
  · rintro (⟨d, hd, rfl, hdead⟩ | hs)
    · refine ⟨d, hd, rfl, ?_⟩
      split
      · rfl
      · exact hdead
    · obtain ⟨d, hd, hdu⟩ := List.mem_map.1 (owns_iff.1 (ho.subtree hr hs))
      obtain ⟨rfl, rfl⟩ := Prod.mk.inj hdu
      have hs : d.idDirektori ∈ m.subtree root := hs
      exact ⟨d, hd, rfl, by simp [hs, DirectoryRow.live]⟩

theorem trashed_untrashSubtree (ho : Owned m) (hr : m.owns u root = true) :
    (m.untrashSubtree (m.subtree root) u).trashed = m.trashed \ Forest.subtree m.le root := by
  ext id
  rw [mem_trashed_updateRows (m := m) rfl (by intro _; rfl)]
  constructor
  · rintro ⟨d, hd, rfl, hdead⟩
    by_cases hs : d.idDirektori ∈ m.subtree root
    · simp [hs, ho.subtree_row hr hd hs, DirectoryRow.live] at hdead
    · exact ⟨(mem_trashed hd).2 (by simpa [hs] using hdead), hs⟩
  · rintro ⟨⟨d, hd, rfl, hdead⟩, hs⟩
    have hs : d.idDirektori ∉ m.subtree root := hs
    exact ⟨d, hd, rfl, by simpa [hs] using hdead⟩

theorem TrashClosed.trash (h : TrashClosed m) (ho : Owned m) (ht : Tree m)
    (hr : m.owns u root = true) : TrashClosed (m.trashSubtree (m.subtree root) u now) where
  directories := by
    rw [trashed_trashSubtree ho hr]
    exact h.directories.mark ht.forest root
  files f hf d hd hfd := by
    rw [trashed_trashSubtree ho hr] at hd
    rcases Table.mem_updateRows.1 hf with ⟨g, hg, -, rfl⟩ | ⟨hf, hw⟩
    · rfl
    · rcases hd with hd | hd
      · exact h.files f hf d hd hfd
      · rw [within_iff.2 ⟨d, hfd, hd⟩] at hw
        cases hw

theorem TrashClosed.untrash (h : TrashClosed m) (ho : Owned m) (ht : Tree m)
    (hr : m.owns u root = true) (htop : TopMarked m.le m.trashed root) :
    TrashClosed (m.untrashSubtree (m.subtree root) u) where
  directories := by
    rw [trashed_untrashSubtree ho hr]
    exact h.directories.unmark ht.forest htop
  files f hf d hd hfd := by
    rw [trashed_untrashSubtree ho hr] at hd
    rcases Table.mem_updateRows.1 hf with ⟨g, hg, hw, rfl⟩ | ⟨hf, -⟩
    · -- a file that is restored is below the root, its directory is not in trash any more
      rw [Bool.and_eq_true] at hw
      obtain ⟨e, he, hs⟩ := within_iff.1 hw.1
      cases he.symm.trans hfd
      exact absurd hs hd.2
    · exact h.files f hf d hd.1 hfd

theorem trashed_addDirectory {row : DirectoryRow} {directories : Table DirectoryRow.idDirektori}
    (directoryClosure : Table fun c : ClosureRow => (c.idInduk, c.idTurunan))
    (hlive : row.live = true) (hd : m.directories.insert [row] = some directories) :
    Metadata.trashed { m with directories, directoryClosure } = m.trashed := by
  ext id
  simp only [Metadata.trashed, Set.mem_ofPred_eq, Table.insert_rows hd, List.mem_append,
    List.mem_singleton]
  constructor
  · rintro ⟨d, hd | rfl, rfl, hdead⟩
    · exact ⟨d, hd, rfl, hdead⟩
    · rw [hlive] at hdead
      cases hdead
  · rintro ⟨d, hd, rfl, hdead⟩
    exact ⟨d, .inl hd, rfl, hdead⟩

theorem trashed_starDirectory (p : DirectoryRow → Bool) (t : Option Time) :
    Metadata.trashed { m with
      directories := m.directories.updateWhere p (fun d => { d with dibintangPada := t })
        fun _ => rfl } = m.trashed := by
  ext id
  rw [mem_trashed_updateRows (m := m) rfl (by intro _; rfl)]
  simp only [DirectoryRow.live, ite_self]
  rfl

theorem trashed_remove (u : Uuid) (ids : List Uuid)
    (hu : ∀ d ∈ m.directories.rows, d.idDirektori ∈ ids → d.idPengguna = u) :
    ((m.removeFiles ids).removeDirectories ids u).trashed = m.trashed \ {id | id ∈ ids} := by
  ext id
  simp only [Metadata.trashed, Metadata.removeFiles, Metadata.removeDirectories,
    Table.mem_deleteWhere, Set.mem_ofPred_eq, Set.mem_sdiff]
  constructor
  · rintro ⟨d, ⟨hd, hn⟩, rfl, hdead⟩
    refine ⟨⟨d, hd, rfl, hdead⟩, fun hid => ?_⟩
    simp [hid, hu d hd hid] at hn
  · rintro ⟨⟨d, hd, rfl, hdead⟩, hid⟩
    exact ⟨d, ⟨hd, by simp [hid]⟩, rfl, hdead⟩

theorem TrashClosed.addDirectory (h : TrashClosed m) {row : DirectoryRow} {parentID : Option Uuid}
    {directories : Table DirectoryRow.idDirektori}
    {directoryClosure : Table fun c : ClosureRow => (c.idInduk, c.idTurunan)}
    (hlive : row.live = true) (hp : ∀ p, parentID = some p → m.ownsLive row.idPengguna p = true)
    (hd : m.directories.insert [row] = some directories)
    (hc : m.directoryClosure.insert (m.newClosureRows row.idDirektori parentID) =
      some directoryClosure) : TrashClosed { m with directories, directoryClosure } := by
  have htr := trashed_addDirectory directoryClosure hlive hd
  have hnew : row.idDirektori ∉ m.trashed := by
    rintro ⟨d, hd', hid, -⟩
    exact Table.insert_new hd hd' (List.mem_singleton_self row) hid
  refine ⟨?_, fun f hf d hdt => h.files f hf d (htr ▸ hdt)⟩
  have hle := funext fun a => funext fun d =>
    propext (le_addDirectory directories hc a d)
  rw [htr, hle]
  exact h.directories.addLeaf hnew fun p hpp => not_trashed_of_ownsLive (hp p hpp)

theorem TrashClosed.remove (h : TrashClosed m) (u : Uuid) (ids : List Uuid)
    (hu : ∀ d ∈ m.directories.rows, d.idDirektori ∈ ids → d.idPengguna = u) :
    TrashClosed ((m.removeFiles ids).removeDirectories ids u) := by
  have htr := trashed_remove u ids hu
  refine ⟨?_, fun f hf d hdt hfd => ?_⟩
  · have hle := funext fun a => funext fun d =>
      propext (le_remove (m := m) ids u a d)
    rw [htr, hle]
    exact h.directories.outside _
  · rw [htr] at hdt
    exact h.files f (Table.mem_deleteWhere.1 hf).1 d hdt.1 hfd

theorem TrashClosed.updateFile (h : TrashClosed m) {p : FileRow → Bool} {f : FileRow → FileRow}
    {hf : ∀ r, (f r).idBerkas = r.idBerkas} (hkeep : ∀ r, (f r).idDirektori = r.idDirektori)
    (hmark : ∀ r, p r = true → (f r).dihapusPada = none →
      r.dihapusPada = none ∨ m.reachableFile r = true) :
    TrashClosed { m with files := m.files.updateWhere p f hf } where
  directories := h.directories
  files g hg d hd hgd := by
    have hd : d ∈ m.trashed := hd
    rcases Table.mem_updateRows.1 hg with ⟨r, hr, hp, rfl⟩ | ⟨hg, -⟩
    · rw [hkeep r] at hgd
      have hsome := h.files r hr d hd hgd
      rw [Option.isSome_iff_ne_none]
      intro hnone
      rcases hmark r hp hnone with hn | hn
      · simp [hn] at hsome
      · -- the directory would be live
        simp only [Metadata.reachableFile, hgd, List.any_eq_true, Bool.and_eq_true,
          beq_iff_eq] at hn
        obtain ⟨e, he, rfl, hlive⟩ := hn
        rw [mem_trashed he, hlive] at hd
        cases hd
    · exact h.files g hg d hd hgd

theorem Effect.trashClosed (ho : Owned m) (ht : Tree m) (h : TrashClosed m)
    (htop : ∀ u id, x.who = some u → x.restores id → m.ownsDeleted u id = true →
      filesUnique lower (m.untrashSubtree (m.subtree id) u).files = true →
      TopMarked m.le m.trashed id)
    (he : Effect lower x m m') : TrashClosed m' := by
  cases he with
  | same => exact h
  | addDirectory row parentID directories directoryClosure _ hlive hp hd hc =>
    exact h.addDirectory hlive hp hd hc
  | starDirectory p t _ =>
    have htr := trashed_starDirectory (m := m) p t
    refine ⟨?_, fun f hf d hd => h.files f hf d (htr ▸ hd)⟩
    rw [htr]
    exact h.directories
  | trash directoryID userID now _ hlive => exact h.trash ho ht (owns_of_live hlive)
  | untrash directoryID userID hwho hres hdel hu =>
    exact h.untrash ho ht (owns_of_deleted hdel) (htop _ _ hwho hres hdel hu)
  | remove directoryID userID _ _ hdel =>
    exact h.remove userID _ fun d hd hs => ho.subtree_row (owns_of_deleted hdel) hd hs
  | addFile row files _ _ hrow hf _ =>
    refine ⟨h.directories, fun f hmem d hd hfd => ?_⟩
    have hmem : f ∈ files.rows := hmem
    rw [Table.insert_rows hf, List.mem_append, List.mem_singleton] at hmem
    rcases hmem with hmem | rfl
    · exact h.files f hmem d hd hfd
    · exact absurd hd (not_trashed_of_ownsLive (hrow d hfd))
  | updateFile p f hf _ hkeep hmark _ _ _ => exact h.updateFile (fun r => (hkeep r).2) hmark
  | removeFile p _ _ =>
    exact ⟨h.directories, fun f hf d hd hfd => h.files f (Table.mem_deleteWhere.1 hf).1 d hd hfd⟩

end

/-! ## Permanent deletes -/

/-- The event is a `RestoreSubtree` that passes its checks. -/
def Restores (lower : String → String) (db : Db) (e : Event × Time) (userID id : Uuid) : Prop :=
  e.1.scope.who = some userID ∧ e.1.scope.restores id ∧ db.ownsDeleted userID id = true ∧
    filesUnique lower (db.untrashSubtree (db.subtree id) userID).files = true

/-- The directory that the event restores, if any, has no proper ancestor in trash. -/
def RestoresOnTop (lower : String → String) (db : Db) (e : Event × Time) : Prop :=
  ∀ userID id, Restores lower db e userID id → TopMarked db.le db.trashed id

theorem Reachable.tree {db : Db} (h : Reachable lower db) : Tree db.toMetadata :=
  (Runs.Reach.inv (P := fun db => Owned db.toMetadata ∧ Tree db.toMetadata) h
    (fun _ hs => hs ▸ ⟨Owned.empty, Tree.empty⟩) fun _ _ _ hi _ hs =>
      ⟨(step_effect hs).owned hi.1, (step_effect hs).tree hi.1 hi.2⟩).2

theorem trashClosed_of_restoresOnTop {db : Db}
    (h : Runs.Reach (step lower) (RestoresOnTop lower) (· = Db.empty) db) :
    TrashClosed db.toMetadata := by
  induction h with
  | init hs => exact hs ▸ TrashClosed.empty
  | next hr hok hs ih =>
    have hreach : Reachable lower _ := hr.mono (fun _ _ _ => trivial) fun _ hs => hs
    exact (step_effect hs).trashClosed hreach.owned hreach.tree ih
      fun u id hwho hres hdel hu => hok u id ⟨hwho, hres, hdel, hu⟩

/-- **A permanent delete destroys trash only**, in runs that restore no directory below one in
trash. -/
theorem permanentDelete_trash {db db' : Db}
    (h : Runs.Reach (step lower) (RestoresOnTop lower) (· = Db.empty) db)
    {directoryID userID : Uuid}
    {now : Time} (hdel : permanentDeleteSubtree db directoryID userID now = .ok db') :
    (∀ d ∈ db.directories.rows, d ∉ db'.directories.rows → d.dihapusPada.isSome = true) ∧
      ∀ f ∈ db.files.rows, f ∉ db'.files.rows → f.committed = true →
        f.dihapusPada.isSome = true := by
  have ht := trashClosed_of_restoresOnTop h
  obtain ⟨howns, hm⟩ := permanentDeleteSubtree_ok hdel
  have hroot := trashed_of_ownsDeleted howns
  have hsub : ∀ id ∈ db.subtree directoryID, id ∈ db.trashed :=
    fun id hid => ht.directories _ _ hid hroot
  rw [hm]
  constructor
  · intro d hd hgone
    have hs : d.idDirektori ∈ db.subtree directoryID := by
      by_contra hs
      exact hgone (Table.mem_deleteWhere.2 ⟨hd, by simp [hs]⟩)
    have hdead := (mem_trashed hd).1 (hsub _ hs)
    simpa [DirectoryRow.live] using hdead
  · intro f hf hgone _
    have hw : f.within (db.subtree directoryID) = true := by
      by_contra hw
      exact hgone (Table.mem_deleteWhere.2 ⟨hf, by simpa using hw⟩)
    obtain ⟨d, hd, hs⟩ := within_iff.1 hw
    exact ht.files f hf d (hsub d hs) hd

/-- What Vault answers to an upload. -/
def sampleResult : UploadCommitResult := ⟨7, 7, 1, 1, 0, true, 1, 0⟩

/-- User 1 makes a directory with a directory and a file in it, and puts it in trash. -/
def trashedTree : List (Event × Time) :=
  [(.call 1 (.createDirectory "a" none 10), 1), (.call 1 (.createDirectory "b" (some 10) 11), 2),
   (.call 1 (.uploadStart (some 11) "f" "" 20), 3),
   (.call 1 (.uploadFinish 20 (.ok sampleResult)), 4),
   (.call 1 (.softDeleteDirectory 10), 5)]

/-- The tree is restored at its top, put in trash again and destroyed. -/
theorem permanentDelete_trash_sample :
    ∃ db db', Runs.Reach (step id) (RestoresOnTop id) (· = Db.empty) db ∧
      permanentDeleteSubtree db 10 1 8 = .ok db' ∧
      (db.directories.rows.length = 2 ∧ db'.directories.rows = []) ∧
      (∀ d ∈ db.directories.rows, d ∉ db'.directories.rows → d.dihapusPada.isSome = true) ∧
      ∀ f ∈ db.files.rows, f ∉ db'.files.rows → f.committed = true →
        f.dihapusPada.isSome = true := by
  have h : (Runs.exec (step id) Db.empty trashedTree).any (fun db =>
      decide (∀ c ∈ db.directoryClosure.rows, c.idTurunan = 10 → c.idInduk = 10) &&
        (step id db (.call 1 (.restoreDirectory 10), 6)).any fun db =>
          (step id db (.call 1 (.softDeleteDirectory 10), 7)).any fun db =>
            (permanentDeleteSubtree db 10 1 8).toOption.any fun db' =>
              decide (db.directories.rows.length = 2 ∧ db'.directories.rows = [])) = true := by
    decide
  obtain ⟨db1, h1, h⟩ := (Option.any_eq_true _ _).1 h
  rw [Bool.and_eq_true, decide_eq_true_eq] at h
  obtain ⟨htop, h⟩ := h
  obtain ⟨db2, h2, h⟩ := (Option.any_eq_true _ _).1 h
  obtain ⟨db3, h3, h⟩ := (Option.any_eq_true _ _).1 h
  have hno : ∀ c : Call, (∀ id, c ≠ .restoreDirectory id) →
      ∀ u t db, RestoresOnTop id db (.call u c, t) :=
    fun c hc _ _ _ _ id hid => absurd hid.2.1 (hc id)
  have hr1 : Runs.Reach (step id) (RestoresOnTop id) (· = Db.empty) db1 := by
    refine Runs.Reach.exec (.init rfl) (fun e he db => ?_) h1
    simp only [trashedTree, List.mem_cons, List.not_mem_nil, or_false] at he
    rcases he with rfl | rfl | rfl | rfl | rfl <;> exact hno _ (by simp) _ _ _
  have hr2 : Runs.Reach (step id) (RestoresOnTop id) (· = Db.empty) db2 := by
    refine .next hr1 (fun _ id hid a hle _ => ?_) h2
    cases hid.2.1
    obtain ⟨c, hc, rfl, hd⟩ := le_iff.1 hle
    exact htop c hc hd
  have hr3 : Runs.Reach (step id) (RestoresOnTop id) (· = Db.empty) db3 :=
    .next hr2 (hno _ (by simp) _ _ _) h3
  obtain ⟨db', hdel, h⟩ := Runs.any_ok h
  exact ⟨db3, db', hr3, hdel, by simpa using h, permanentDelete_trash hr3 hdel⟩

/-- `RestoreSubtree` of the inner directory leaves it and its file live below a directory in trash;
destroying that one destroys them. -/
theorem permanentDelete_live :
    ∃ db db', Reachable id db ∧ permanentDeleteSubtree db 10 1 8 = .ok db' ∧
      (∃ d ∈ db.directories.rows, d.dihapusPada = none ∧ d ∉ db'.directories.rows) ∧
      ∃ f ∈ db.files.rows, f.committed = true ∧ f.dihapusPada = none ∧ f ∉ db'.files.rows := by
  have h : (Runs.exec (step id) Db.empty
      (trashedTree ++ [(.call 1 (.restoreDirectory 11), 6)])).any (fun db =>
        (permanentDeleteSubtree db 10 1 8).toOption.any fun db' => decide
          ((∃ d ∈ db.directories.rows, d.dihapusPada = none ∧ d ∉ db'.directories.rows) ∧
            ∃ f ∈ db.files.rows,
              f.committed = true ∧ f.dihapusPada = none ∧ f ∉ db'.files.rows)) = true := by
    decide
  obtain ⟨db, hdb, h⟩ := (Option.any_eq_true _ _).1 h
  have hr : Reachable id db := Runs.Reach.exec (.init rfl) (fun _ _ _ => trivial) hdb
  obtain ⟨db', hdel, h⟩ := Runs.any_ok h
  exact ⟨db, db', hr, hdel, of_decide_eq_true h⟩

end HashBox.Api
