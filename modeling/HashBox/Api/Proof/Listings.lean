import Mathlib.Data.String.Basic
import HashBox.Api.Listings
import HashBox.Vault.Names

/-!
# Which listings have exact pages

The count and the list query of a listing select the same rows, each once (`filesPage_rows`). An
`ORDER BY` clause that ends in the primary key parts no ties, so the pages are exact
(`Listing.exact_of_key`); the search has no such key and is exact only where no border between two
pages parts files of one creation time.
-/

namespace HashBox.Api

open Paging

/-- **A clause that tells the rows apart.** -/
theorem Listing.exact_of_key {α : Type _} {l : Listing α} {limit : Nat} (hlimit : 0 < limit)
    (htotal : l.total = l.rows.length) (hrows : l.rows.Nodup)
    (hties : ∀ a ∈ l.rows, ∀ b ∈ l.rows, l.orderBy.Tie a b → a = b) : l.Exact limit := by
  refine ⟨hrows, ?_⟩
  rw [htotal]
  exact (pages_exact hlimit hrows).2 fun k => not_straddles hties hrows (k * limit)

/-! ## The queries -/

theorem leftJoin_files (m : Metadata) (f : FileRow) : (m.leftJoin f).map Prod.fst = [f] := by
  have hsub : (m.directories.rows.filter fun d => f.idDirektori == some d.idDirektori).Sublist
      m.directories.rows := List.filter_sublist
  have hkeys := m.directories.primaryKey.sublist (hsub.map _)
  have hdir : ∀ d ∈ m.directories.rows.filter fun d => f.idDirektori == some d.idDirektori,
      f.idDirektori = some d.idDirektori := fun d hd => beq_iff_eq.1 (List.mem_filter.1 hd).2
  unfold Metadata.leftJoin
  split
  · rfl
  · next hne =>
    cases hds : m.directories.rows.filter fun d => f.idDirektori == some d.idDirektori with
    | nil => exact absurd hds hne
    | cons d ds =>
      rw [hds] at hkeys hdir
      cases ds with
      | nil => rfl
      | cons d' ds =>
        have hsame : d.idDirektori = d'.idDirektori := Option.some.inj <|
          (hdir d List.mem_cons_self).symm.trans
            (hdir d' (List.mem_cons_of_mem _ List.mem_cons_self))
        rw [List.map_cons, List.map_cons, hsame] at hkeys
        exact absurd List.mem_cons_self (List.nodup_cons.1 hkeys).1

theorem filesLeftJoin_files (m : Metadata) : m.filesLeftJoin.map Prod.fst = m.files.rows := by
  rw [Metadata.filesLeftJoin, List.map_flatMap]
  simp only [leftJoin_files, List.flatMap_singleton']

theorem filesPage_rows (m : Metadata) (clause : FileRow × Option DirectoryRow → Bool)
    (orderBy : SortKey FileRow) :
    let l := filesPage m clause orderBy
    l.total = l.rows.length ∧ l.rows.Nodup ∧ ∀ f ∈ l.rows, f ∈ m.files.rows := by
  have hsub : ((m.filesLeftJoin.filter clause).map Prod.fst).Sublist m.files.rows := by
    rw [← filesLeftJoin_files]
    exact List.filter_sublist.map _
  exact ⟨(List.length_map _).symm, (m.files.primaryKey.of_map _).sublist hsub,
    fun f hf => hsub.subset hf⟩

theorem filesPage_exact {m : Metadata} {clause : FileRow × Option DirectoryRow → Bool}
    {orderBy : SortKey FileRow} {limit : Nat} (hlimit : 0 < limit)
    (hkey : ∀ a b, orderBy.Tie a b → a.idBerkas = b.idBerkas) :
    (filesPage m clause orderBy).Exact limit := by
  obtain ⟨htotal, hrows, hmem⟩ := filesPage_rows m clause orderBy
  exact Listing.exact_of_key hlimit htotal hrows fun a ha b hb h =>
    m.files.eq_of_key (hmem a ha) (hmem b hb) (hkey a b h)

theorem directoriesPage_exact {m : Metadata} {clause : DirectoryRow → Bool}
    {orderBy : SortKey DirectoryRecord} {limit : Nat} (hlimit : 0 < limit)
    (hkey : ∀ a b, orderBy.Tie a b → a.id = b.id) :
    (directoriesPage m clause orderBy).Exact limit := by
  have hids : ((directoriesPage m clause orderBy).rows.map DirectoryRecord.id).Nodup := by
    rw [directoriesPage, List.map_map]
    exact m.directories.primaryKey.sublist (List.filter_sublist.map _)
  exact Listing.exact_of_key hlimit (List.length_map _).symm (hids.of_map _) fun a ha b hb h =>
    List.inj_on_of_nodup_map hids ha hb (hkey a b h)

/-! ## The clauses -/

section
variable {κ : Type} [LinearOrder κ] (collate : String → κ) (lower : String → String)

theorem fileListOrderBy_key (sort : String) (a b : FileRow)
    (h : (fileListOrderBy collate lower sort).Tie a b) : a.idBerkas = b.idBerkas := by
  unfold fileListOrderBy at h
  split at h <;> simp only [SortKey.tie_andThen, SortKey.tie_asc, SortKey.tie_desc] at h
  · exact h.2
  · exact h.2
  · exact h.2
  · exact h.2
  · exact h.2.2
  · exact h.2

theorem listWorkspaceFilesPage_exact (m : Metadata) (userID : Uuid) (mode : WorkspaceMode)
    {limit : Nat} (hlimit : 0 < limit) :
    (listWorkspaceFilesPage collate lower m userID mode).Exact limit := by
  cases mode <;> refine filesPage_exact hlimit fun a b h => ?_ <;>
    simp only [SortKey.tie_andThen, SortKey.tie_asc, SortKey.tie_desc] at h <;> exact h.2.2

theorem listWorkspaceDirectoriesPage_exact (m : Metadata) (userID : Uuid) (mode : WorkspaceMode)
    {limit : Nat} (hlimit : 0 < limit) :
    (listWorkspaceDirectoriesPage collate lower m userID mode).Exact limit := by
  cases mode <;> refine directoriesPage_exact hlimit fun a b h => ?_ <;>
    simp only [SortKey.tie_andThen, SortKey.tie_asc, SortKey.tie_desc] at h <;> exact h.2.2

theorem searchByUser_exact (ilike : String → String → Bool) (hex : Hash → String) (m : Metadata)
    (userID : Uuid) (filter : FileSearchFilter) {limit : Nat} (hlimit : 0 < limit) :
    (searchByUser ilike hex m userID filter).Exact limit ↔
      ∀ k, ¬ Straddles (.desc FileRow.dibuatPada) (searchByUser ilike hex m userID filter).rows
        (k * limit) := by
  obtain ⟨htotal, hrows, -⟩ : (searchByUser ilike hex m userID filter).total =
        (searchByUser ilike hex m userID filter).rows.length ∧
      (searchByUser ilike hex m userID filter).rows.Nodup ∧ _ := filesPage_rows ..
  rw [Listing.Exact, htotal]
  exact ⟨fun h => (pages_exact hlimit hrows).1 h.2,
    fun h => ⟨hrows, (pages_exact hlimit hrows).2 h⟩⟩

/-- **Exact pagination**: of every listing but the search, and of the search exactly where no border
between two pages parts files of one creation time. -/
theorem pagination_exact (ilike : String → String → Bool) (hex : Hash → String) (m : Metadata)
    (userID : Uuid) (limit : Nat) (hlimit : 0 < limit) :
    (∀ filter, (listByDirectoryPage collate lower m userID filter).Exact limit) ∧
    (∀ mode, (listWorkspaceFilesPage collate lower m userID mode).Exact limit) ∧
    (∀ mode, (listWorkspaceDirectoriesPage collate lower m userID mode).Exact limit) ∧
    ∀ filter, (searchByUser ilike hex m userID filter).Exact limit ↔
      ∀ k, ¬ Straddles (.desc FileRow.dibuatPada) (searchByUser ilike hex m userID filter).rows
        (k * limit) :=
  ⟨fun filter => filesPage_exact hlimit (fileListOrderBy_key collate lower filter.sort),
    fun mode => listWorkspaceFilesPage_exact collate lower m userID mode hlimit,
    fun mode => listWorkspaceDirectoriesPage_exact collate lower m userID mode hlimit,
    fun filter => searchByUser_exact ilike hex m userID filter hlimit⟩

end

/-- `ILIKE` where the pattern has its `%` at both ends and nowhere else, in letters of ASCII. -/
def sampleIlike (text pattern : String) : Bool :=
  decide ((pattern.toList.filter (· ≠ '%')).map Char.toLower <:+: text.toList.map Char.toLower)

def sampleFile (id : Uuid) (nama : String) (dibuatPada : Time) : FileRow where
  idBerkas := id
  idPengguna := 1
  idDirektori := none
  nama := nama
  ukuran := 10
  mimeType := "text/plain"
  idManifest := some 1
  chunkCount := 1
  newChunkCount := 1
  reuseChunkCount := 0
  dedupRatio := 0
  statusPenyimpanan := .committed
  dibintangiPada := none
  dibuatPada := dibuatPada
  dihapusPada := none

/-- Two files of one creation time, an older one, and one of another name. -/
def sampleFiles : Metadata :=
  { Metadata.empty with
    files := ⟨[sampleFile 1 "notes-a" 5, sampleFile 2 "notes-b" 5, sampleFile 3 "Notes" 4,
      sampleFile 4 "photo" 5], by decide⟩ }

/-- All files of the user with that name. -/
def sampleSearch : FileSearchFilter := ⟨none, "notes", false⟩

/-- Pages of two part no ties. -/
theorem pagination_exact_sample :
    (searchByUser sampleIlike Vault.hex sampleFiles 1 sampleSearch).Exact 2 := by
  have hthree :
      (searchByUser sampleIlike Vault.hex sampleFiles 1 sampleSearch).rows.length = 3 := by
    decide +kernel
  refine ((pagination_exact (fun name : String => name) String.toLower sampleIlike Vault.hex
    sampleFiles 1 2 (by decide)).2.2.2 sampleSearch).2 fun k => ?_
  match k with
  | 0 => decide +kernel
  | 1 => decide +kernel
  | k + 2 =>
    rintro ⟨x, -, -, hmany⟩
    have hle := Nat.lt_of_lt_of_le hmany List.countP_le_length
    omega

/-- Pages of one part the two files. -/
theorem pagination_exact_fails :
    ¬ ∀ (m : Metadata) (userID : Uuid) query directoryID includeDeleted limit offset listing,
      serviceSearch sampleIlike Vault.hex m userID query directoryID includeDeleted limit offset =
          .ok (listing, limit, offset) →
        listing.Exact limit.toNat := by
  intro h
  have hsearch : serviceSearch sampleIlike Vault.hex sampleFiles 1 "notes" none false 1 0 =
      .ok (searchByUser sampleIlike Vault.hex sampleFiles 1 sampleSearch, 1, 0) := by
    rfl
  have hexact := h _ _ _ _ _ _ _ _ hsearch
  exact (searchByUser_exact _ _ _ _ _ Nat.one_pos).1 hexact 1 (by decide +kernel)

end HashBox.Api
