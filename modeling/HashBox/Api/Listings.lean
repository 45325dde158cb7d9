import Mathlib.Order.WithBot
import HashBox.Api.Directory
import HashBox.Lib.Paging

/-!
# The paged listings (`file_repository.go`, `directory_repository.go`)

Each listing is a count query and a list query with `LIMIT` and `OFFSET`. A `Listing` is what they
say of a table content: the count, the rows and the `ORDER BY` clause; the order in which a query
returns rows that tie is its own. `collate` is the sort key of a text under the database's
collation, `ilike` its `ILIKE`, and `hex` the text of a manifest id.
-/

namespace HashBox.Api

open Paging

structure Listing (α : Type _) where
  total : Nat
  rows : List α
  orderBy : SortKey α

/-- `domain.FileListFilter` without the page; the root has no directory id. -/
structure FileListFilter where
  directoryID : Option Uuid
  includeDeleted : Bool
  createdFrom : Option Time
  createdTo : Option Time
  sort : String
deriving DecidableEq, Repr

/-- `domain.FileSearchFilter` without the page. -/
structure FileSearchFilter where
  directoryID : Option Uuid
  query : String
  includeDeleted : Bool
deriving DecidableEq, Repr

/-- `… LEFT JOIN directories d ON d.id_direktori = f.id_direktori`, for one file. -/
def Metadata.leftJoin (m : Metadata) (f : FileRow) : List (FileRow × Option DirectoryRow) :=
  match m.directories.rows.filter fun d => f.idDirektori == some d.idDirektori with
  | [] => [(f, none)]
  | ds => ds.map fun d => (f, some d)

/-- `FROM files f LEFT JOIN …` -/
def Metadata.filesLeftJoin (m : Metadata) : List (FileRow × Option DirectoryRow) :=
  m.files.rows.flatMap m.leftJoin

/-- `d.dihapus_pada IS NULL`, also where the join has no directory. -/
def dihapusPadaIsNull (d : Option DirectoryRow) : Bool := d.all fun d => d.dihapusPada.isNone

/-- PostgreSQL sorts a NULL as if it were greater than every value, so `DESC` puts it first. -/
def nullGreatest (t : Option Time) : WithTop Time := t

/-- `DESC NULLS LAST` puts a NULL where it would be if it were the least value. -/
def nullLeast (t : Option Time) : WithBot Time := t

/-- The two queries of a listing of files. -/
def filesPage (m : Metadata) (clause : FileRow × Option DirectoryRow → Bool)
    (orderBy : SortKey FileRow) : Listing FileRow where
  total := (m.filesLeftJoin.filter clause).length
  rows := (m.filesLeftJoin.filter clause).map Prod.fst
  orderBy

section
variable {κ : Type} [LinearOrder κ] (collate : String → κ) (lower : String → String)

def fileListOrderBy (sort : String) : SortKey FileRow :=
  match sort with
  | "oldest" => (SortKey.asc FileRow.dibuatPada).andThen (.asc FileRow.idBerkas)
  | "name-asc" | "type" =>
    (SortKey.asc fun f : FileRow => collate (lower f.nama)).andThen (.asc FileRow.idBerkas)
  | "name-desc" =>
    (SortKey.desc fun f : FileRow => collate (lower f.nama)).andThen (.desc FileRow.idBerkas)
  | "starred" =>
    (SortKey.desc fun f : FileRow => nullLeast f.dibintangiPada).andThen
      ((SortKey.desc FileRow.dibuatPada).andThen (.desc FileRow.idBerkas))
  | _ => (SortKey.desc FileRow.dibuatPada).andThen (.desc FileRow.idBerkas)

/-- The `WHERE` clause of `ListByDirectoryPage`. -/
def listByDirectoryClause (userID : Uuid) (filter : FileListFilter) :
    FileRow × Option DirectoryRow → Bool
  | (f, d) =>
    f.idPengguna == userID && f.committed &&
      (match filter.directoryID with
      | none => f.idDirektori.isNone
      | some directoryID =>
        f.idDirektori == some directoryID && (filter.includeDeleted || dihapusPadaIsNull d)) &&
      (filter.includeDeleted || f.dihapusPada.isNone) &&
      (filter.createdFrom.all fun t => decide (t ≤ f.dibuatPada)) &&
      (filter.createdTo.all fun t => decide (f.dibuatPada ≤ t))

def listByDirectoryPage (m : Metadata) (userID : Uuid) (filter : FileListFilter) :
    Listing FileRow :=
  filesPage m (listByDirectoryClause userID filter) (fileListOrderBy collate lower filter.sort)

inductive WorkspaceMode
  | trash
  | starred
deriving DecidableEq, Repr

def listWorkspaceFilesPage (m : Metadata) (userID : Uuid) : WorkspaceMode → Listing FileRow
  | .trash =>
    filesPage m (fun (f, d) => f.idPengguna == userID && f.committed &&
      (f.idDirektori.isNone || dihapusPadaIsNull d) && f.dihapusPada.isSome)
      ((SortKey.desc fun f : FileRow => nullGreatest f.dihapusPada).andThen
        ((SortKey.asc fun f : FileRow => collate (lower f.nama)).andThen (.asc FileRow.idBerkas)))
  | .starred =>
    filesPage m (fun (f, d) => f.idPengguna == userID && f.committed &&
      (f.idDirektori.isNone || dihapusPadaIsNull d) && f.dihapusPada.isNone &&
      f.dibintangiPada.isSome)
      ((SortKey.desc fun f : FileRow => nullGreatest f.dibintangiPada).andThen
        ((SortKey.asc fun f : FileRow => collate (lower f.nama)).andThen (.asc FileRow.idBerkas)))

/-- `NOT EXISTS (…)`: no ancestor is in the trash. -/
def Metadata.trashRoot (m : Metadata) (d : DirectoryRow) : Bool :=
  !m.directoryClosure.rows.any fun dc =>
    dc.idTurunan == d.idDirektori && decide (0 < dc.kedalaman) &&
      m.directories.rows.any fun a => a.idDirektori == dc.idInduk && a.dihapusPada.isSome

/-- The two queries of a listing of directories; only the list query looks for the parent. -/
def directoriesPage (m : Metadata) (clause : DirectoryRow → Bool)
    (orderBy : SortKey DirectoryRecord) : Listing DirectoryRecord where
  total := (m.directories.rows.filter clause).length
  rows := (m.directories.rows.filter clause).map fun d => d.toRecord (m.parent d.idDirektori)
  orderBy

def listWorkspaceDirectoriesPage (m : Metadata) (userID : Uuid) :
    WorkspaceMode → Listing DirectoryRecord
  | .trash =>
    directoriesPage m (fun d => d.idPengguna == userID && d.dihapusPada.isSome && m.trashRoot d)
      ((SortKey.desc fun d : DirectoryRecord => nullGreatest d.deletedAt).andThen
        ((SortKey.asc fun d : DirectoryRecord => collate (lower d.name)).andThen
          (.asc DirectoryRecord.id)))
  | .starred =>
    directoriesPage m
      (fun d => d.idPengguna == userID && d.dihapusPada.isNone && d.dibintangPada.isSome)
      ((SortKey.desc fun d : DirectoryRecord => nullGreatest d.starredAt).andThen
        ((SortKey.asc fun d : DirectoryRecord => collate (lower d.name)).andThen
          (.asc DirectoryRecord.id)))

end

/-- `SearchByUser`; its `ORDER BY` has the creation time only. -/
def searchByUser (ilike : String → String → Bool) (hex : Hash → String) (m : Metadata)
    (userID : Uuid) (filter : FileSearchFilter) : Listing FileRow :=
  let pattern := "%" ++ trimSpace filter.query ++ "%"
  filesPage m (fun (f, d) => f.idPengguna == userID && f.committed &&
    (f.idDirektori.isNone || dihapusPadaIsNull d) &&
    (filter.directoryID.all fun id => f.idDirektori == some id) &&
    (filter.includeDeleted || f.dihapusPada.isNone) &&
    (trimSpace filter.query == "" || ilike f.nama pattern ||
      f.idManifest.any (fun id => ilike (hex id) pattern) || ilike f.mimeType pattern))
    (SortKey.desc FileRow.dibuatPada)

def defaultFileSearchLimit : Int := 20

def maxFileSearchLimit : Int := 200

/-- `FileService.Search`, the caller of `SearchByUser`: the listing, and the limit and the offset of
the page that is shown of it. `len(query)` counts bytes. -/
def serviceSearch (ilike : String → String → Bool) (hex : Hash → String) (m : Metadata)
    (userID : Uuid) (query : String) (directoryID : Option Uuid) (includeDeleted : Bool)
    (limit offset : Int) : Except Error (Listing FileRow × Int × Int) :=
  let query := trimSpace query
  let invalid (text : String) : Except Error (Listing FileRow × Int × Int) :=
    .error (.detail .errInvalidInput text)
  if query = "" then invalid "query wajib diisi"
  else if query.utf8ByteSize < 2 then invalid "query minimal 2 karakter"
  else if 255 < query.utf8ByteSize then invalid "query terlalu panjang"
  else if directoryID.any fun d => !m.ownsLive userID d then .error .errNotFound
  else
    let limit := if limit = 0 then defaultFileSearchLimit else limit
    if limit < 1 ∨ maxFileSearchLimit < limit then
      invalid s!"limit harus antara 1 dan {maxFileSearchLimit}"
    else if offset < 0 then invalid "offset tidak boleh negatif"
    else .ok (searchByUser ilike hex m userID ⟨directoryID, query, includeDeleted⟩, limit, offset)

/-- Whatever order each query returns its rows in, the pages of `limit` rows at the offsets below
the total are together every row once. -/
def Listing.Exact {α : Type _} (l : Listing α) (limit : Nat) : Prop :=
  l.rows.Nodup ∧ ∀ orders : Nat → List α, (∀ k, Sorts l.orderBy l.rows (orders k)) →
    (pages limit l.total orders).Perm l.rows

end HashBox.Api
