import HashBox.Api.Directory

/-!
# How the directories are shown

`DirectoryRepository.Tree`, and `getDirectoryTreeExpanded` of the web client
(`web-client/src/pages/dashboard/_api/directoryApi.ts`), which asks for the roots and then for the
subtree of each. `collate` is the order of the database's collation, `localeCompare` that of the
browser.
-/

namespace HashBox.Api

section
variable (collate : String → String → Bool)

/-- `Tree`; without a root id, the live directories that have no parent. -/
def tree (m : Metadata) (userID : Uuid) : Option Uuid → List DirectoryRecord
  | none =>
    ((m.directories.rows.filter fun d => d.idPengguna == userID && d.live &&
      !m.directoryClosure.rows.any fun c => c.idTurunan == d.idDirektori && c.kedalaman == 1).map
        (·.toRecord none)).insertionSort fun r s => collate r.name s.name = true
  | some rootID =>
    ((m.directoryClosure.rows.filter (·.idInduk == rootID)).flatMap fun c =>
      (m.directories.rows.filter fun d =>
        d.idDirektori == c.idTurunan && d.idPengguna == userID && d.live).map fun d =>
          { d.toRecord (m.parent d.idDirektori) with depth := c.kedalaman }).insertionSort
            fun r s => r.depth < s.depth ∨ (r.depth = s.depth ∧ collate r.name s.name = true)

end

/-- `Map.set`: an entry keeps its place when its value is replaced. -/
def mapSet (map : List DirectoryRecord) (node : DirectoryRecord) : List DirectoryRecord :=
  match map with
  | [] => [node]
  | r :: rs => if r.id = node.id then node :: rs else r :: mapSet rs node

/-- `getDirectoryTreeExpanded`; `getTree` is the answer of the API to `getTree`. -/
def getDirectoryTreeExpanded (localeCompare : String → String → Int)
    (getTree : Option Uuid → List DirectoryRecord) : List DirectoryRecord :=
  let roots := getTree none
  if roots = [] then []
  else
    let subtrees := roots.map fun root => getTree (some root.id)
    let map := subtrees.flatten.foldl mapSet []
    map.insertionSort fun left right =>
      (if left.depth ≠ right.depth then (left.depth : Int) - right.depth
        else localeCompare left.name right.name) ≤ 0

end HashBox.Api
