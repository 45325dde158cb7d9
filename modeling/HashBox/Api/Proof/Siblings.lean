import HashBox.Api.Proof.Navigation

/-!
# Names of sibling directories

`Create` looks for a live directory of the same name in the same place before it inserts;
`RestoreSubtree` does not, and the table has no index that would. In runs that restore no directory
beside one of its name, no two live siblings have one name (`siblings_unique`); a directory trashed,
made anew and restored has a namesake (`restore_makes_namesake`).

A sibling is told by the hierarchy that the closure table represents: two directories have the same
parent exactly when the parent links of both are the same (`siblings_iff`).
-/

namespace HashBox.Api

/-- The calls of `DirectoryRepository` that change what is where, and any call of the API. -/
inductive DirectoryCall
  | create (userID : Uuid) (name : String) (parentID : Option Uuid) (newID : Uuid)
  | softDeleteSubtree (directoryID userID : Uuid)
  | restoreSubtree (directoryID userID : Uuid)
  | permanentDeleteSubtree (directoryID userID : Uuid)
  | api (e : Event)

section
variable (lower : String → String)

def directoryStep (db : Db) : DirectoryCall × Time → Option Db
  | (.create userID name parentID newID, now) =>
    some (db.after (createDirectory lower db userID name parentID newID now))
  | (.softDeleteSubtree id userID, now) =>
    step lower db (.call userID (.softDeleteDirectory id), now)
  | (.restoreSubtree id userID, now) => step lower db (.call userID (.restoreDirectory id), now)
  | (.permanentDeleteSubtree id userID, now) =>
    step lower db (.call userID (.permanentDeleteDirectory id), now)
  | (.api e, now) => step lower db (e, now)

/-- The directories are of one user and have the same parent, or no parent both. -/
def Metadata.siblings (m : Metadata) (d e : DirectoryRow) : Prop :=
  d.idPengguna = e.idPengguna ∧
    ((∃ p, (⟨p, d.idDirektori, 1⟩ : ClosureRow) ∈ m.directoryClosure.rows ∧
        (⟨p, e.idDirektori, 1⟩ : ClosureRow) ∈ m.directoryClosure.rows) ∨
      (m.isRoot d.idDirektori ∧ m.isRoot e.idDirektori))

/-- No two live siblings have one name, up to case. -/
def SiblingsUnique (m : Metadata) : Prop :=
  ∀ d ∈ m.directories.rows, ∀ e ∈ m.directories.rows, d.live = true → e.live = true →
    m.siblings d e → lower d.nama = lower e.nama → d = e

/-- No directory that `RestoreSubtree` takes out of trash has a namesake among the siblings that are
live or are restored with it. -/
def RestoresApart (m : Metadata) (directoryID userID : Uuid) : Prop :=
  let restored (d : DirectoryRow) : Prop :=
    d.idDirektori ∈ m.subtree directoryID ∧ d.idPengguna = userID
  ∀ d ∈ m.directories.rows, ∀ e ∈ m.directories.rows, restored d → d.live = false →
    e.live = true ∨ restored e → m.siblings d e → lower d.nama = lower e.nama → d = e

/-- Every `RestoreSubtree` that passes its own checks restores no directory beside a namesake. -/
def RestoresNoNamesake (db : Db) (c : DirectoryCall × Time) : Prop :=
  ∀ directoryID userID, c.1 = .restoreSubtree directoryID userID ∨
      c.1 = .api (.call userID (.restoreDirectory directoryID)) →
    db.ownsDeleted userID directoryID = true →
    filesUnique lower (db.untrashSubtree (db.subtree directoryID) userID).files = true →
    RestoresApart lower db.toMetadata directoryID userID

end

variable {lower : String → String} {db db' : Db} {m m' : Metadata} {t : Hierarchy Uuid}

/-! ## Parents -/

theorem Represents.isRoot_iff (h : Represents m t) {id : Uuid} :
    m.isRoot id ↔ t.parent id = none := by
  constructor
  · intro hr
    cases hp : t.parent id with
    | none => rfl
    | some p => exact absurd rfl (hr _ (h.depth_one.2 hp) rfl)
  · rintro hp ⟨a, d, k⟩ hc rfl rfl
    rw [h.depth_one.1 hc] at hp
    cases hp

/-- Siblings are the directories of a user with the same parent link. -/
theorem Represents.siblings_iff (h : Represents m t) {d e : DirectoryRow} :
    m.siblings d e ↔
      d.idPengguna = e.idPengguna ∧ t.parent d.idDirektori = t.parent e.idDirektori := by
  simp only [Metadata.siblings, h.depth_one, h.isRoot_iff]
  refine and_congr_right fun _ => ⟨?_, fun he => ?_⟩
  · rintro (⟨p, hd, he⟩ | ⟨hd, he⟩) <;> rw [hd, he]
  · cases hp : t.parent d.idDirektori with
    | none => exact .inr ⟨rfl, he ▸ hp⟩
    | some p => exact .inl ⟨p, rfl, he ▸ hp⟩

theorem Represents.unique_iff (h : Represents m t) : SiblingsUnique lower m ↔
    ∀ d ∈ m.directories.rows, ∀ e ∈ m.directories.rows, d.live = true → e.live = true →
      d.idPengguna = e.idPengguna → t.parent d.idDirektori = t.parent e.idDirektori →
      lower d.nama = lower e.nama → d = e := by
  simp only [SiblingsUnique, h.siblings_iff, and_imp]

/-! ## What the calls make of the hierarchy -/

theorem Represents.updateRows (h : Represents m t) {p : DirectoryRow → Bool}
    {f : DirectoryRow → DirectoryRow}
    (hd : m'.directories.rows = Table.updateRows p f m.directories.rows)
    (hf : ∀ d, (f d).idDirektori = d.idDirektori) (hc : m'.directoryClosure = m.directoryClosure) :
    Represents m' t :=
  have hs : SameShape m m' := .updateRows hd hf hc
  h.congr hs.ids hs.closure

/-- **Every effect leaves a hierarchy**: a new directory is a leaf of it, a destroyed one is cut. -/
theorem Effect.represents {x : Scope} (ho : Owned m) (h : Represents m t)
    (he : Effect lower x m m') : ∃ t', Represents m' t' := by
  cases he with
  | same | updateFile | removeFile | addFile => exact ⟨t, h.congr rfl rfl⟩
  | addDirectory row parentID directories directoryClosure _ _ hp hd hc =>
    exact ⟨_, h.addDirectory (h.fresh hd) (fun p hpp => h.owned_mem (owns_of_live (hp p hpp)))
      hd hc⟩
  | starDirectory => exact ⟨t, h.updateRows rfl (fun _ => rfl) rfl⟩
  | trash => exact ⟨t, h.updateRows rfl (fun _ => rfl) rfl⟩
  | untrash => exact ⟨t, h.updateRows rfl (fun _ => rfl) rfl⟩
  | remove directoryID userID _ _ hdel => exact ⟨_, h.remove ho (owns_of_deleted hdel)⟩

/-! ## What they make of the names -/

theorem SiblingsUnique.updateRows (h : Represents m t) {p : DirectoryRow → Bool}
    {f : DirectoryRow → DirectoryRow}
    (hd : m'.directories.rows = Table.updateRows p f m.directories.rows)
    (hc : m'.directoryClosure = m.directoryClosure)
    (hf : ∀ d, (f d).idDirektori = d.idDirektori ∧ (f d).idPengguna = d.idPengguna ∧
      (f d).nama = d.nama)
    (hu : ∀ d ∈ m.directories.rows, ∀ e ∈ m.directories.rows, (if p d then f d else d).live = true →
      (if p e then f e else e).live = true → m.siblings d e → lower d.nama = lower e.nama → d = e) :
    SiblingsUnique lower m' := by
  rw [(h.updateRows hd (fun d => (hf d).1) hc).unique_iff, hd]
  have hkeep : ∀ d : DirectoryRow, (if p d then f d else d).idDirektori = d.idDirektori ∧
      (if p d then f d else d).idPengguna = d.idPengguna ∧
      (if p d then f d else d).nama = d.nama := fun d => by
    split
    · exact hf d
    · exact ⟨rfl, rfl, rfl⟩
  intro d' hd' e' he' hdl hel hus hpar hname
  obtain ⟨d, hd, rfl⟩ := List.mem_map.1 hd'
  obtain ⟨e, he, rfl⟩ := List.mem_map.1 he'
  obtain ⟨hdi, hdu, hdn⟩ := hkeep d
  obtain ⟨hei, heu, hen⟩ := hkeep e
  rw [hdu, heu] at hus
  rw [hdi, hei] at hpar
  rw [hdn, hen] at hname
  rw [hu d hd e he hdl hel (h.siblings_iff.2 ⟨hus, hpar⟩) hname]

theorem SiblingsUnique.star (hu : SiblingsUnique lower m) (h : Represents m t)
    (p : DirectoryRow → Bool) (u : Option Time) :
    SiblingsUnique lower { m with
      directories := m.directories.updateWhere p (fun d => { d with dibintangPada := u })
        fun _ => rfl } := by
  refine .updateRows h rfl rfl (fun _ => ⟨rfl, rfl, rfl⟩) fun d hd e he hdl hel =>
    hu d hd e he ?_ ?_
  · split at hdl <;> exact hdl
  · split at hel <;> exact hel

theorem SiblingsUnique.trash (hu : SiblingsUnique lower m) (h : Represents m t) (ids : List Uuid)
    (u : Uuid) (now : Time) : SiblingsUnique lower (m.trashSubtree ids u now) := by
  refine .updateRows h rfl rfl (fun _ => ⟨rfl, rfl, rfl⟩) fun d hd e he hdl hel =>
    hu d hd e he ?_ ?_
  · split at hdl
    · cases hdl
    · exact hdl
  · split at hel
    · cases hel
    · exact hel

/-- A restore keeps the names unique if it brings no directory beside a namesake. -/
theorem SiblingsUnique.untrash (hu : SiblingsUnique lower m) (h : Represents m t) {id u : Uuid}
    (hr : RestoresApart lower m id u) :
    SiblingsUnique lower (m.untrashSubtree (m.subtree id) u) := by
  refine .updateRows h rfl rfl (fun _ => ⟨rfl, rfl, rfl⟩) ?_
  have hcase : ∀ d : DirectoryRow,
      (if decide (d.idDirektori ∈ m.subtree id) && d.idPengguna == u then
        { d with dihapusPada := none } else d).live = true →
      d.live = true ∨ (d.idDirektori ∈ m.subtree id ∧ d.idPengguna = u) := fun d hdl => by
    split at hdl
    · next hp => exact .inr (by simpa using hp)
    · exact .inl hdl
  intro d hd e he hdl hel hs hname
  have hs' : m.siblings e d := by
    rw [h.siblings_iff] at hs ⊢
    exact ⟨hs.1.symm, hs.2.symm⟩
  by_cases hd0 : d.live = true
  · by_cases he0 : e.live = true
    · exact hu d hd e he hd0 he0 hs hname
    · exact (hr e he d hd ((hcase e hel).resolve_left he0) (by simpa using he0) (.inl hd0) hs'
        hname.symm).symm
  · exact hr d hd e he ((hcase d hdl).resolve_left hd0) (by simpa using hd0) (hcase e hel) hs hname

theorem SiblingsUnique.remove (hu : SiblingsUnique lower m) (h : Represents m t) (ho : Owned m)
    {id u : Uuid} (hr : m.owns u id = true) :
    SiblingsUnique lower ((m.removeFiles (m.subtree id)).removeDirectories (m.subtree id) u) := by
  have h' := h.remove ho hr
  rw [h.unique_iff] at hu
  rw [h'.unique_iff]
  have hparent : ∀ d ∈ ((m.removeFiles (m.subtree id)).removeDirectories
      (m.subtree id) u).directories.rows, (t.cut id).parent d.idDirektori =
      t.parent d.idDirektori := fun d hd =>
    if_neg ((h'.nodes _).2 (List.mem_map_of_mem hd)).2
  intro d hd e he hdl hel hus hpar hname
  rw [hparent d hd, hparent e he] at hpar
  exact hu d (Table.mem_deleteWhere.1 hd).1 e (Table.mem_deleteWhere.1 he).1 hdl hel hus hpar hname

/-- `checkDuplicate` that finds nothing: no live directory of the user in that place has the
name. -/
theorem checkDuplicate_none (h : Represents db.toMetadata t) {userID : Uuid} {name : String}
    {parentID : Option Uuid} (hdup : checkDuplicate lower db userID name parentID = .ok false) :
    ∀ d ∈ db.directories.rows, d.live = true → d.idPengguna = userID →
      t.parent d.idDirektori = parentID → lower d.nama ≠ lower name := by
  intro d hd hdl hdu hpar hname
  cases parentID with
  | none =>
    simp only [checkDuplicate, Except.ok.injEq, List.any_eq_false] at hdup
    refine hdup d hd ?_
    simp only [hdu, hdl, hname, beq_self_eq_true, Bool.true_and, Bool.not_eq_true',
      List.any_eq_false, Bool.and_eq_true, beq_iff_eq]
    rintro c hc ⟨hid, hone⟩
    exact h.isRoot_iff.2 hpar c hc hid hone
  | some p =>
    have hlive := checkDuplicate_live hdup p rfl
    simp only [checkDuplicate, hlive, Bool.not_true, Bool.false_eq_true, if_false, Except.ok.injEq,
      List.any_eq_false] at hdup
    refine hdup ⟨p, d.idDirektori, 1⟩ (h.depth_one.2 hpar) ?_
    simp only [beq_self_eq_true, Bool.true_and, List.any_eq_true, Bool.and_eq_true, beq_iff_eq]
    exact ⟨d, hd, rfl, ⟨hdu, hdl⟩, hname⟩

/-- **`Create` keeps the names unique**: `checkDuplicate` has looked at every live sibling. -/
theorem SiblingsUnique.create (hu : SiblingsUnique lower db.toMetadata)
    (h : Represents db.toMetadata t) (userID : Uuid) (name : String) (parentID : Option Uuid)
    (newID : Uuid) (now : Time) :
    SiblingsUnique lower
      (db.after (createDirectory lower db userID name parentID newID now)).toMetadata := by
  cases hc : createDirectory lower db userID name parentID newID now with
  | error e => exact hu
  | ok out =>
    obtain ⟨directories, directoryClosure, hdup, hd, hcl, hout⟩ := createDirectory_ok hc
    have hn := h.fresh hd
    have hp : ∀ p, parentID = some p → p ∈ t.nodes := fun p hpp =>
      h.owned_mem (owns_of_live (checkDuplicate_live hdup p hpp))
    have h' := h.addDirectory hn hp hd hcl
    rw [Db.after, hout]
    rw [h.unique_iff] at hu
    rw [h'.unique_iff]
    have hnew := checkDuplicate_none h hdup
    have hold : ∀ d ∈ db.directories.rows, (t.addLeaf newID parentID hn hp).parent d.idDirektori =
        t.parent d.idDirektori := fun d hdm => by
      refine Function.update_of_ne (fun hid => hn ?_) ..
      exact hid ▸ (h.nodes d.idDirektori).2 (List.mem_map_of_mem hdm)
    have hself : (t.addLeaf newID parentID hn hp).parent newID = parentID := Function.update_self ..
    intro d hdm e hem hdl hel hus hpar hname
    simp only [Table.insert_rows hd, List.mem_append, List.mem_singleton] at hdm hem
    rcases hdm with hdm | rfl <;> rcases hem with hem | rfl
    · rw [hold d hdm, hold e hem] at hpar
      exact hu d hdm e hem hdl hel hus hpar hname
    · rw [hold d hdm, hself] at hpar
      exact absurd hname (hnew d hdm hdl hus hpar)
    · rw [hold e hem, hself] at hpar
      exact absurd hname.symm (hnew e hem hel hus.symm hpar.symm)
    · rfl

theorem Effect.siblingsUnique {x : Scope} (ho : Owned m) (h : Represents m t)
    (hu : SiblingsUnique lower m) (hlen : m'.directoryIDs.length ≤ m.directoryIDs.length)
    (hr : ∀ id u, x.who = some u → x.restores id → m.ownsDeleted u id = true →
      filesUnique lower (m.untrashSubtree (m.subtree id) u).files = true →
      RestoresApart lower m id u) (he : Effect lower x m m') : SiblingsUnique lower m' := by
  cases he with
  | same | updateFile | removeFile | addFile => exact hu
  | addDirectory row parentID directories directoryClosure _ _ _ hd _ =>
    simp only [Metadata.directoryIDs, Table.insert_rows hd, List.length_map, List.length_append,
      List.length_singleton] at hlen
    omega
  | starDirectory p u _ => exact hu.star h p u
  | trash directoryID userID now _ _ => exact hu.trash h _ userID now
  | untrash directoryID userID hw hres hdel hfiles =>
    exact hu.untrash h (hr directoryID userID hw hres hdel hfiles)
  | remove directoryID userID _ _ hdel => exact hu.remove h ho (owns_of_deleted hdel)

/-! ## Every run -/

theorem step_directories_le {e : Event} {now : Time} (hs : step lower db (e, now) = some db')
    (hc : ∀ userID name parentID newID, e ≠ .call userID (.createDirectory name parentID newID)) :
    db'.directoryIDs.length ≤ db.directoryIDs.length := by
  cases hr : Event.reshapes lower db (e, now) with
  | false => rw [(step_shape hs hr).ids]
  | true =>
    unfold Event.reshapes at hr
    split at hr
    · next heq => exact absurd (Prod.mk.inj heq).1 (hc _ _ _ _)
    · next userID directoryID now' heq =>
      cases heq
      cases hs
      simp only [runCall]
      split
      · next hd =>
        rw [(permanentDeleteSubtree_ok hd).2, Metadata.directoryIDs, Metadata.directoryIDs,
          List.length_map, List.length_map]
        exact List.length_filter_le _ _
      · exact Nat.le_refl _
    · cases hr

/-- What the runs keep: the owners, the hierarchy and the names. -/
structure NamesKept (lower : String → String) (m : Metadata) : Prop where
  owned : Owned m
  represents : ∃ t, Represents m t
  unique : SiblingsUnique lower m

theorem NamesKept.empty (lower : String → String) : NamesKept lower Metadata.empty where
  owned := Owned.empty
  represents := ⟨_, Represents.empty⟩
  unique _ hd := by cases hd

theorem NamesKept.create (h : NamesKept lower db.toMetadata) (userID : Uuid) (name : String)
    (parentID : Option Uuid) (newID : Uuid) (now : Time) :
    NamesKept lower
      (db.after (createDirectory lower db userID name parentID newID now)).toMetadata := by
  obtain ⟨t, ht⟩ := h.represents
  let x := (Event.call userID (.createDirectory name parentID newID)).scope
  have he := (@createDirectory_alters lower x db userID name parentID newID now rfl).effect
  exact ⟨he.owned h.owned, he.represents h.owned ht,
    h.unique.create ht userID name parentID newID now⟩

theorem NamesKept.step {e : Event} {now : Time} (h : NamesKept lower db.toMetadata)
    (hr : ∀ id u, e = .call u (.restoreDirectory id) → db.ownsDeleted u id = true →
      filesUnique lower (db.untrashSubtree (db.subtree id) u).files = true →
      RestoresApart lower db.toMetadata id u)
    (hs : step lower db (e, now) = some db') : NamesKept lower db'.toMetadata := by
  obtain ⟨t, ht⟩ := h.represents
  by_cases hc : ∀ userID name parentID newID,
    e ≠ .call userID (.createDirectory name parentID newID)
  · have he := step_effect hs
    refine ⟨he.owned h.owned, he.represents h.owned ht,
      he.siblingsUnique h.owned ht h.unique (step_directories_le hs hc) fun id u hw hres => ?_⟩
    cases e with
    | call userID c => cases hw; cases hres; exact hr id _ rfl
    | expireStalePending olderThan => cases hres
  · push Not at hc
    obtain ⟨userID, name, parentID, newID, rfl⟩ := hc
    cases hs
    simp only [runCall]
    rcases serviceCreateDirectory_cases lower db userID name parentID newID now with hs | ⟨e, hs⟩
    · rw [hs]
      exact h.create userID _ parentID newID now
    · rw [hs]
      exact h

theorem directoryStep_kept {c : DirectoryCall × Time} (h : NamesKept lower db.toMetadata)
    (hr : RestoresNoNamesake lower db c) (hs : directoryStep lower db c = some db') :
    NamesKept lower db'.toMetadata := by
  obtain ⟨c, now⟩ := c
  cases c with
  | create userID name parentID newID =>
    cases hs
    exact h.create userID name parentID newID now
  | softDeleteSubtree id userID =>
    exact h.step (e := .call userID (.softDeleteDirectory id)) (fun _ _ he => by cases he) hs
  | restoreSubtree id userID =>
    refine h.step (e := .call userID (.restoreDirectory id)) (fun id' u he => ?_) hs
    cases he
    exact hr id userID (.inl rfl)
  | permanentDeleteSubtree id userID =>
    exact h.step (e := .call userID (.permanentDeleteDirectory id)) (fun _ _ he => by cases he) hs
  | api e => exact h.step (fun id u he => hr id u (.inr (he ▸ rfl))) hs

/-- **Sibling names are unique**, in runs that restore no directory beside one of its name: no two
live directories of a user with the same parent, or without one, have one name up to case. -/
theorem siblings_unique
    (h : Runs.Reach (directoryStep lower) (RestoresNoNamesake lower) (· = Db.empty) db) :
    SiblingsUnique lower db.toMetadata :=
  (Runs.Reach.inv (P := fun db => NamesKept lower db.toMetadata) h
    (fun _ hs => hs ▸ NamesKept.empty lower)
    fun _ _ _ hk hr hs => directoryStep_kept hk hr hs).unique

/-- User 1 makes a directory, puts it in trash and makes another one. -/
def trashedThenMade (second : String) : List (DirectoryCall × Time) :=
  [(.create 1 "a" none 10, 1), (.softDeleteSubtree 10 1, 2), (.create 1 second none 11, 3)]

/-- The first directory is restored beside one of another name. -/
theorem siblings_unique_sample : ∃ db : Db, db.liveDirectory 1 10 ∧ db.liveDirectory 1 11 ∧
    SiblingsUnique id db.toMetadata := by
  have h : (Runs.exec (directoryStep id) Db.empty (trashedThenMade "b")).any (fun db =>
      decide (∀ d ∈ db.directories.rows, ∀ e ∈ db.directories.rows, d.nama = e.nama → d = e) &&
        (directoryStep id db (.restoreSubtree 10 1, 4)).any fun db => decide
          ((∃ d ∈ db.directories.rows, d.idDirektori = 10 ∧ d.idPengguna = 1 ∧ d.live = true) ∧
            ∃ d ∈ db.directories.rows, d.idDirektori = 11 ∧ d.idPengguna = 1 ∧ d.live = true)) =
      true := by
    decide
  obtain ⟨db1, h1, h⟩ := (Option.any_eq_true _ _).1 h
  rw [Bool.and_eq_true, decide_eq_true_eq] at h
  obtain ⟨hnames, h⟩ := h
  obtain ⟨db2, h2, h⟩ := (Option.any_eq_true _ _).1 h
  rw [decide_eq_true_eq] at h
  have hr1 : Runs.Reach (directoryStep id) (RestoresNoNamesake id) (· = Db.empty) db1 := by
    refine Runs.Reach.exec (.init rfl) (fun c hc db id u hres => ?_) h1
    simp only [trashedThenMade, List.mem_cons, List.not_mem_nil, or_false] at hc
    rcases hc with rfl | rfl | rfl <;> rcases hres with hres | hres <;> cases hres
  have hr2 : Runs.Reach (directoryStep id) (RestoresNoNamesake id) (· = Db.empty) db2 :=
    .next hr1 (fun id u _ _ _ d hd e he _ _ _ _ hname => hnames d hd e he hname) h2
  exact ⟨db2, h.1, h.2, siblings_unique hr2⟩

/-- `RestoreSubtree` puts the directory beside its namesake. -/
theorem restore_makes_namesake : ∃ db, Runs.Reach (directoryStep id) (fun _ _ => True)
    (· = Db.empty) db ∧ ¬ SiblingsUnique id db.toMetadata := by
  have h : (Runs.exec (directoryStep id) Db.empty
      (trashedThenMade "a" ++ [(.restoreSubtree 10 1, 4)])).any (fun db => decide
        (∃ d ∈ db.directories.rows, ∃ e ∈ db.directories.rows, d.live = true ∧ e.live = true ∧
          d.idPengguna = e.idPengguna ∧ d.nama = e.nama ∧ d ≠ e ∧
          (∀ c ∈ db.directoryClosure.rows, c.idTurunan = d.idDirektori → c.kedalaman ≠ 1) ∧
          ∀ c ∈ db.directoryClosure.rows, c.idTurunan = e.idDirektori → c.kedalaman ≠ 1)) =
      true := by
    decide
  obtain ⟨db, hdb, h⟩ := (Option.any_eq_true _ _).1 h
  rw [decide_eq_true_eq] at h
  obtain ⟨d, hd, e, he, hdl, hel, hus, hname, hne, hdr, her⟩ := h
  exact ⟨db, Runs.Reach.exec (.init rfl) (fun _ _ _ => trivial) hdb, fun hu =>
    hne (hu d hd e he hdl hel ⟨hus, .inr ⟨hdr, her⟩⟩ hname)⟩

end HashBox.Api
