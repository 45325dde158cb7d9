import HashBox.Api.Navigation
import HashBox.Api.Proof.ClosureTable
import HashBox.Api.Proof.Restore

/-!
# Every live directory is navigable

The roots that `Tree` lists and their subtrees are the user's live directories (`tree_covers_live`)
as long as no directory is restored below a root in trash: what is below a root in trash is in trash
then, so the root above a live directory is live. A directory restored below a root in trash is live
and is in no answer of `Tree` to `getDirectoryTreeExpanded` (`restored_not_navigable`,
`tree_misses_live`).
-/

namespace HashBox.Api

open Forest

section
variable {lower : String → String} {collate : String → String → Bool} {m : Metadata}
  {userID id : Uuid}

def Metadata.liveDirectory (m : Metadata) (userID id : Uuid) : Prop :=
  ∃ d ∈ m.directories.rows, d.idDirektori = id ∧ d.idPengguna = userID ∧ d.live = true

/-- What `Tree` without a root id and `Tree` for each of the roots return together. -/
def Navigable (collate : String → String → Bool) (m : Metadata) (userID id : Uuid) : Prop :=
  (∃ r ∈ tree collate m userID none, r.id = id) ∨
    ∃ root ∈ tree collate m userID none, ∃ r ∈ tree collate m userID (some root.id), r.id = id

/-! ## The queries -/

def Metadata.isRoot (m : Metadata) (id : Uuid) : Prop :=
  ∀ c ∈ m.directoryClosure.rows, c.idTurunan = id → c.kedalaman ≠ 1

theorem mem_tree_none : (∃ r ∈ tree collate m userID none, r.id = id) ↔
    m.liveDirectory userID id ∧ m.isRoot id := by
  simp only [tree, List.mem_insertionSort, List.mem_map, List.mem_filter, Bool.and_eq_true,
    beq_iff_eq, Bool.not_eq_true', List.any_eq_false]
  constructor
  · rintro ⟨_, ⟨d, ⟨hd, ⟨hu, hlive⟩, hroot⟩, rfl⟩, rfl⟩
    exact ⟨⟨d, hd, rfl, hu, hlive⟩, fun c hc hid hk => hroot c hc ⟨hid, hk⟩⟩
  · rintro ⟨⟨d, hd, rfl, hu, hlive⟩, hroot⟩
    exact ⟨_, ⟨d, ⟨hd, ⟨hu, hlive⟩, fun c hc h => hroot c hc h.1 h.2⟩, rfl⟩, rfl⟩

theorem mem_tree_some {rootID : Uuid} : (∃ r ∈ tree collate m userID (some rootID), r.id = id) ↔
    m.liveDirectory userID id ∧ m.le rootID id := by
  simp only [tree, List.mem_insertionSort, List.mem_flatMap, List.mem_map, List.mem_filter,
    Bool.and_eq_true, beq_iff_eq, le_iff]
  constructor
  · rintro ⟨_, ⟨c, ⟨hc, hroot⟩, d, ⟨hd, ⟨hid, hu⟩, hlive⟩, rfl⟩, rfl⟩
    exact ⟨⟨d, hd, rfl, hu, hlive⟩, c, hc, hroot, hid.symm⟩
  · rintro ⟨⟨d, hd, rfl, hu, hlive⟩, c, hc, hroot, hid⟩
    exact ⟨_, ⟨c, ⟨hc, hroot⟩, d, ⟨hd, ⟨hid.symm, hu⟩, hlive⟩, rfl⟩, rfl⟩

theorem Navigable.live (h : Navigable collate m userID id) : m.liveDirectory userID id := by
  rcases h with h | ⟨root, -, h⟩
  · exact (mem_tree_none.1 h).1
  · exact (mem_tree_some.1 h).1

theorem navigable_of_root {r : Uuid} (hlive : m.liveDirectory userID id) (hr : m.isRoot r)
    (hrl : m.liveDirectory userID r) (hle : m.le r id) :
    ∃ root ∈ tree collate m userID none, ∃ s ∈ tree collate m userID (some root.id), s.id = id := by
  obtain ⟨root, hroot, rfl⟩ : ∃ root ∈ tree collate m userID none, root.id = r :=
    mem_tree_none.2 ⟨hrl, hr⟩
  exact ⟨root, hroot, mem_tree_some.2 ⟨hlive, hle⟩⟩

/-! ## The web client -/

theorem mem_mapSet {map : List DirectoryRecord} {node : DirectoryRecord} :
    (∃ r ∈ mapSet map node, r.id = id) ↔ (∃ r ∈ map, r.id = id) ∨ node.id = id := by
  induction map with
  | nil => simp [mapSet]
  | cons r rs ih =>
    unfold mapSet
    split
    · next he =>
      simp only [List.mem_cons, exists_eq_or_imp, he]
      grind
    · simp only [List.mem_cons, exists_eq_or_imp, ih]
      grind

theorem mem_foldl_mapSet (nodes : List DirectoryRecord) : ∀ map : List DirectoryRecord,
    (∃ r ∈ nodes.foldl mapSet map, r.id = id) ↔
      (∃ r ∈ map, r.id = id) ∨ ∃ r ∈ nodes, r.id = id := by
  induction nodes with
  | nil => simp
  | cons node nodes ih =>
    intro map
    rw [List.foldl_cons, ih, mem_mapSet, or_assoc]
    simp only [List.mem_cons, exists_eq_or_imp]

theorem mem_getDirectoryTreeExpanded {localeCompare : String → String → Int}
    {getTree : Option Uuid → List DirectoryRecord} :
    (∃ r ∈ getDirectoryTreeExpanded localeCompare getTree, r.id = id) ↔
      ∃ root ∈ getTree none, ∃ r ∈ getTree (some root.id), r.id = id := by
  unfold getDirectoryTreeExpanded
  dsimp only
  split
  · next hnil => simp [hnil]
  · simp only [List.mem_insertionSort, mem_foldl_mapSet, List.mem_flatten, List.mem_map]
    constructor
    · rintro (⟨r, hr, -⟩ | ⟨r, ⟨_, ⟨root, hroot, rfl⟩, hr⟩, hid⟩)
      · cases hr
      · exact ⟨root, hroot, r, hr, hid⟩
    · rintro ⟨root, hroot, r, hr, hid⟩
      exact .inr ⟨r, ⟨_, ⟨root, hroot, rfl⟩, hr⟩, hid⟩

/-! ## Roots -/

/-- The directories without a parent are the roots of the forest. -/
theorem isRoot_iff {t : Hierarchy Uuid} (h : Represents m t) {r : Uuid} :
    m.isRoot r ↔ IsRoot m.le r := by
  constructor
  · intro hr a ha
    obtain ⟨hmem, k, hk⟩ := h.mem_subtree.1 ha
    cases k with
    | zero => exact hk
    | succ k =>
      obtain ⟨p, hp, -⟩ := hk
      exact absurd rfl (hr _ (h.depth_one.2 hp) rfl)
  · rintro hr ⟨p, d, k⟩ hc hd hone
    simp only at hd hone
    subst hd hone
    have hp := h.depth_one.1 hc
    have hself := hr p (le_iff.2 ⟨_, hc, rfl, rfl⟩)
    rw [hself] at hp
    exact Hierarchy.not_ancestor_self (Hierarchy.ancestor_one.2 hp)

theorem exists_isRoot {t : Hierarchy Uuid} (h : Represents m t) {d : DirectoryRow}
    (hd : d ∈ m.directories.rows) : ∃ r, IsRoot m.le r ∧ m.le r d.idDirektori := by
  have hmem : d.idDirektori ∈ t.nodes := (h.nodes _).2 (List.mem_map_of_mem hd)
  obtain ⟨k, r, hk, hroot⟩ := t.exists_root d.idDirektori
  refine ⟨r, fun a ha => ?_, h.mem_subtree.2 ⟨hmem, k, hk⟩⟩
  obtain ⟨-, j, hj⟩ := h.mem_subtree.1 ha
  cases j with
  | zero => exact hj
  | succ j =>
    obtain ⟨p, hp, -⟩ := hj
    rw [hroot] at hp
    cases hp

theorem Owned.row_above (h : Owned m) {d : DirectoryRow} (hd : d ∈ m.directories.rows) {a : Uuid}
    (hle : m.le a d.idDirektori) :
    ∃ e ∈ m.directories.rows, e.idDirektori = a ∧ e.idPengguna = d.idPengguna := by
  obtain ⟨c, hc, rfl, hcd⟩ := le_iff.1 hle
  obtain ⟨u, hu1, hu2⟩ := h.closure c hc
  rw [hcd] at hu2
  cases owns_unique hu2 (owns_of_mem hd)
  obtain ⟨e, he, heu⟩ := List.mem_map.1 (owns_iff.1 hu1)
  obtain ⟨hid, hu⟩ := Prod.mk.inj heu
  exact ⟨e, he, hid, hu⟩

/-- What a statement makes of the directories below a root in trash. -/
theorem Effect.rootHereditary {x : Scope} {m' : Metadata} (ho : Owned m) (ht : Tree m)
    (h : RootHereditary m.le m.trashed)
    (htop : ∀ u id, x.who = some u → x.restores id → m.ownsDeleted u id = true →
      filesUnique lower (m.untrashSubtree (m.subtree id) u).files = true →
      RootUnmarked m.le m.trashed id)
    (he : Effect lower x m m') : RootHereditary m'.le m'.trashed := by
  cases he with
  | same => exact h
  | addDirectory row parentID directories directoryClosure _ hlive hp hd hc =>
    have hle := funext fun a => funext fun d => propext (le_addDirectory directories hc a d)
    rw [trashed_addDirectory directoryClosure hlive hd, hle]
    exact h.addLeaf fun p hpp => not_trashed_of_ownsLive (hp p hpp)
  | starDirectory p t _ =>
    rw [trashed_starDirectory p t]
    exact h
  | trash directoryID userID now _ hlive =>
    rw [trashed_trashSubtree ho (owns_of_live hlive)]
    exact h.mark directoryID
  | untrash directoryID userID hwho hres hdel hu =>
    rw [trashed_untrashSubtree ho (owns_of_deleted hdel)]
    exact h.unmark ht.forest (htop _ _ hwho hres hdel hu)
  | remove directoryID userID _ _ hdel =>
    have hle := funext fun a => funext fun d =>
      propext (le_remove (m := m) (m.subtree directoryID) userID a d)
    rw [hle, trashed_remove userID _ fun d hd hs => ho.subtree_row (owns_of_deleted hdel) hd hs]
    exact h.outside fun a d had ha => ht.forest.trans ha had
  | addFile row files _ _ _ _ _ => exact h
  | updateFile p f hf _ _ _ _ _ _ => exact h
  | removeFile p _ _ => exact h

/-- The directory that the event restores, if any, is a root or below a live one. -/
def RestoresRooted (lower : String → String) (db : Db) (e : Event × Time) : Prop :=
  ∀ userID id, Restores lower db e userID id → RootUnmarked db.le db.trashed id

theorem rootHereditary_of_restoresRooted {db : Db}
    (h : Runs.Reach (step lower) (RestoresRooted lower) (· = Db.empty) db) :
    RootHereditary db.le db.trashed := by
  induction h with
  | init hs =>
    subst hs
    exact fun _ _ _ hle _ => by cases hle
  | next hr hok hs ih =>
    have hreach : Reachable lower _ := hr.mono (fun _ _ _ => trivial) fun _ hs => hs
    exact (step_effect hs).rootHereditary hreach.owned hreach.tree ih
      fun u id hwho hres hdel hu => hok u id ⟨hwho, hres, hdel, hu⟩

/-! ## Coverage -/

/-- Above a live directory is a live root. -/
theorem exists_live_root {db : Db}
    (h : Runs.Reach (step lower) (RestoresRooted lower) (· = Db.empty) db)
    (hlive : db.liveDirectory userID id) :
    ∃ r, db.isRoot r ∧ db.liveDirectory userID r ∧ db.le r id := by
  have hreach : Reachable lower db := h.mono (fun _ _ _ => trivial) fun _ hs => hs
  obtain ⟨t, -, hrep⟩ := represents_recorded hreach
  obtain ⟨d, hd, rfl, rfl, hdl⟩ := hlive
  obtain ⟨r, hroot, hle⟩ := exists_isRoot hrep hd
  obtain ⟨e, he, rfl, hu⟩ := hreach.owned.row_above hd hle
  refine ⟨_, (isRoot_iff hrep).2 hroot, ⟨e, he, rfl, hu, ?_⟩, hle⟩
  -- a root in trash would have the directory in trash
  by_contra hdead
  rw [Bool.not_eq_true] at hdead
  have htr := rootHereditary_of_restoresRooted h _ _ hroot hle ((mem_trashed he).2 hdead)
  rw [mem_trashed hd, hdl] at htr
  cases htr

/-- **Every live directory is navigable**, in runs that restore no directory below a root in trash:
`Tree`, asked for the roots and for each of them, lists exactly the user's live directories, and so
does the web client. -/
theorem tree_covers_live {db : Db}
    (h : Runs.Reach (step lower) (RestoresRooted lower) (· = Db.empty) db)
    (collate : String → String → Bool) (localeCompare : String → String → Int) (userID id : Uuid) :
    (Navigable collate db.toMetadata userID id ↔ db.liveDirectory userID id) ∧
      ((∃ r ∈ getDirectoryTreeExpanded localeCompare (tree collate db.toMetadata userID),
        r.id = id) ↔ db.liveDirectory userID id) := by
  have hcover : db.liveDirectory userID id → ∃ root ∈ tree collate db.toMetadata userID none,
      ∃ r ∈ tree collate db.toMetadata userID (some root.id), r.id = id := by
    intro hlive
    obtain ⟨r, hr, hrl, hle⟩ := exists_live_root h hlive
    exact navigable_of_root hlive hr hrl hle
  rw [mem_getDirectoryTreeExpanded]
  exact ⟨⟨Navigable.live, fun hlive => .inr (hcover hlive)⟩,
    ⟨fun hnav => Navigable.live (.inr hnav), hcover⟩⟩

end

/-- **No other restores keep it**: a directory restored below a root in trash is live and in no
answer of `Tree`. -/
theorem restored_not_navigable {lower : String → String} {db db' : Db} (h : Reachable lower db)
    {userID id : Uuid} {out : DirectoryRecord}
    (hok : restoreSubtree lower db id userID = .ok (db', out))
    (hbelow : ¬ RootUnmarked db.le db.trashed id) (collate : String → String → Bool) :
    db'.liveDirectory userID id ∧ ¬ Navigable collate db'.toMetadata userID id := by
  have hdel : db.ownsDeleted userID id = true := by
    by_contra hdel
    rw [Bool.not_eq_true] at hdel
    simp [restoreSubtree, hdel] at hok
  have hown := owns_of_deleted hdel
  have hreach : Reachable lower db' := by
    refine h.next (a := (.call userID (.restoreDirectory id), 0)) trivial ?_
    simp only [step, runCall, hok, Db.after]
  obtain ⟨-, rfl⟩ := (restoreSubtree_ok_iff lower db db' hdel).1 ⟨out, hok⟩
  have htr := trashed_untrashSubtree h.owned hown
  obtain ⟨t, -, hrep⟩ := represents_recorded hreach
  simp only [RootUnmarked, not_forall] at hbelow
  obtain ⟨r, hroot, hle, hr, hne⟩ := hbelow
  have hself : db.le id id := by
    obtain ⟨d, hd, hdu⟩ := List.mem_map.1 (owns_iff.1 hown)
    cases hdu
    exact h.tree.self d hd
  have hr' : r ∈ (db.untrashSubtree (db.subtree id) userID).trashed :=
    htr ▸ ⟨hr, fun hid => hne (hroot id hid).symm⟩
  constructor
  · rw [← owns_congr (owners_untrashSubtree (db.subtree id) userID)] at hown
    obtain ⟨d, hd, hdu⟩ := List.mem_map.1 (owns_iff.1 hown)
    obtain ⟨hid, hu⟩ := Prod.mk.inj hdu
    refine ⟨d, hd, hid, hu, ?_⟩
    by_contra hdead
    have hin := (mem_trashed hd).2 (by simpa using hdead)
    rw [htr, hid] at hin
    exact hin.2 hself
  · -- the root above it is the one in trash
    rintro (hnone | ⟨root, hmem, hsome⟩)
    · exact hne ((isRoot_iff hrep).1 (mem_tree_none.1 hnone).2 r hle)
    · obtain ⟨⟨d, hd, hid, -, hlive⟩, hrt⟩ := mem_tree_none.1 ⟨root, hmem, rfl⟩
      have hroot' : IsRoot db.le root.id := (isRoot_iff hrep).1 hrt
      have hle' : db.le root.id id := (mem_tree_some.1 hsome).2
      have heq : root.id = r := (h.tree.forest.linear hle' hle).elim (hroot _) fun hl =>
        (hroot' _ hl).symm
      rw [← heq, ← hid] at hr'
      rw [(mem_trashed hd).1 hr'] at hlive
      cases hlive

/-- User 1 makes a directory with a directory in it, and puts it in trash. -/
def trashedPair : List (Event × Time) :=
  [(.call 1 (.createDirectory "a" none 10), 1), (.call 1 (.createDirectory "b" (some 10) 11), 2),
   (.call 1 (.softDeleteDirectory 10), 3)]

/-- The pair is restored at its top. -/
theorem tree_covers_live_sample : ∃ db : Db, db.liveDirectory 1 11 ∧
    Navigable (fun _ _ => true) db.toMetadata 1 11 := by
  have h : (Runs.exec (step id) Db.empty trashedPair).any (fun db =>
      decide (∀ c ∈ db.directoryClosure.rows, c.idTurunan = 10 → c.idInduk = 10) &&
        (step id db (.call 1 (.restoreDirectory 10), 4)).any fun db =>
          decide (∃ d ∈ db.directories.rows, d.idDirektori = 11 ∧ d.idPengguna = 1 ∧
            d.live = true)) = true := by
    decide
  obtain ⟨db1, h1, h⟩ := (Option.any_eq_true _ _).1 h
  rw [Bool.and_eq_true, decide_eq_true_eq] at h
  obtain ⟨htop, h⟩ := h
  obtain ⟨db2, h2, h⟩ := (Option.any_eq_true _ _).1 h
  rw [decide_eq_true_eq] at h
  have hlive : db2.liveDirectory 1 11 := h
  have hr1 : Runs.Reach (step id) (RestoresRooted id) (· = Db.empty) db1 := by
    refine Runs.Reach.exec (.init rfl) (fun e he db => ?_) h1
    simp only [trashedPair, List.mem_cons, List.not_mem_nil, or_false] at he
    rcases he with rfl | rfl | rfl <;> exact fun _ _ hres => by cases hres.2.1
  have hr2 : Runs.Reach (step id) (RestoresRooted id) (· = Db.empty) db2 := by
    refine .next hr1 (fun u id hres a _ hle _ => ?_) h2
    cases hres.2.1
    obtain ⟨c, hc, rfl, hd⟩ := le_iff.1 hle
    exact htop c hc hd
  exact ⟨db2, hlive, (tree_covers_live hr2 (fun _ _ => true) (fun _ _ => 0) 1 11).1.2 hlive⟩

/-- `RestoreSubtree` of the inner directory leaves it live below one in trash: it is no
root, and the root above it is not listed. -/
theorem tree_misses_live : ∃ db, Reachable id db ∧ db.liveDirectory 1 11 ∧
    ∀ collate localeCompare, ¬ Navigable collate db.toMetadata 1 11 ∧
      getDirectoryTreeExpanded localeCompare (tree collate db.toMetadata 1) = [] := by
  have h : (Runs.exec (step id) Db.empty
      (trashedPair ++ [(.call 1 (.restoreDirectory 11), 4)])).any (fun db => decide
        ((∃ d ∈ db.directories.rows, d.idDirektori = 11 ∧ d.idPengguna = 1 ∧ d.live = true) ∧
          ∀ d ∈ db.directories.rows, d.live = true → ∃ c ∈ db.directoryClosure.rows,
            c.idTurunan = d.idDirektori ∧ c.kedalaman = 1)) = true := by
    decide
  obtain ⟨db, hdb, h⟩ := (Option.any_eq_true _ _).1 h
  rw [decide_eq_true_eq] at h
  obtain ⟨hlive, hnone⟩ := h
  refine ⟨db, Runs.Reach.exec (.init rfl) (fun _ _ _ => trivial) hdb, hlive,
    fun collate localeCompare => ?_⟩
  -- no live directory is a root
  have hroots : tree collate db.toMetadata 1 none = [] := by
    refine List.eq_nil_iff_forall_not_mem.2 fun r hr => ?_
    obtain ⟨⟨d, hd, hid, -, hdl⟩, hroot⟩ := mem_tree_none.1 ⟨r, hr, rfl⟩
    obtain ⟨c, hc, hcd, hone⟩ := hnone d hd hdl
    exact hroot c hc (hcd.trans hid) hone
  refine ⟨?_, by rw [getDirectoryTreeExpanded, hroots]; rfl⟩
  rintro (⟨r, hr, -⟩ | ⟨root, hroot, -⟩)
  · rw [hroots] at hr
    cases hr
  · rw [hroots] at hroot
    cases hroot

end HashBox.Api
