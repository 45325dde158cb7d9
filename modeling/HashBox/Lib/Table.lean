import Mathlib.Data.List.Nodup
import Mathlib.Data.List.Sort

/-!
# Tables with a primary key

A `Table K` is the list of its rows, no two of which share the key `K`. `insert` is
`INSERT INTO …`, and fails when the key is taken; `updateWhere` and `deleteWhere` are
`UPDATE … SET … WHERE …` and `DELETE … WHERE …`; `upsert` is `INSERT … ON CONFLICT (key) DO UPDATE`.
The membership lemmas say which rows a statement leaves in the table, and the `filter` lemmas are
the frame rules: which rows it leaves alone.
-/

/-- Rows with distinct keys. -/
@[ext] structure Table {α κ : Type _} (K : α → κ) where
  rows : List α
  primaryKey : (rows.map K).Nodup
deriving DecidableEq

namespace Table

variable {α β κ : Type _} {K : α → κ}

def empty : Table K := ⟨[], List.nodup_nil⟩

theorem eq_of_key {t : Table K} {r r' : α} (h : r ∈ t.rows) (h' : r' ∈ t.rows) (hk : K r = K r') :
    r = r' :=
  List.inj_on_of_nodup_map t.primaryKey h h' hk

/-! ## UPDATE and DELETE -/

/-- What an `UPDATE` makes of the rows. -/
def updateRows (p : α → Bool) (f : α → α) (rows : List α) : List α :=
  rows.map fun r => if p r then f r else r

theorem map_updateRows {p : α → Bool} {f : α → α} {k : α → β} (hk : ∀ r, k (f r) = k r)
    (rows : List α) : (updateRows p f rows).map k = rows.map k := by
  rw [updateRows, List.map_map]
  refine List.map_congr_left fun r _ => ?_
  simp only [Function.comp_apply]
  split
  · exact hk r
  · rfl

def updateWhere (t : Table K) (p : α → Bool) (f : α → α) (h : ∀ r, K (f r) = K r) : Table K where
  rows := updateRows p f t.rows
  primaryKey := (map_updateRows h t.rows).symm ▸ t.primaryKey

theorem unique_updateWhere {t : Table K} {p : α → Bool} {f : α → α} {h : ∀ r, K (f r) = K r}
    {k : α → β} (hk : ∀ r, k (f r) = k r) (hu : (t.rows.map k).Nodup) :
    ((t.updateWhere p f h).rows.map k).Nodup :=
  (map_updateRows hk t.rows).symm ▸ hu

def deleteWhere (t : Table K) (p : α → Bool) : Table K where
  rows := t.rows.filter fun r => !p r
  primaryKey := t.primaryKey.sublist (List.filter_sublist.map K)

theorem map_filterMap_sublist {f : α → Option α} (hf : ∀ r q, f r = some q → K q = K r)
    (rows : List α) : ((rows.filterMap f).map K).Sublist (rows.map K) := by
  induction rows with
  | nil => exact List.Sublist.refl _
  | cons r rows ih =>
    rw [List.filterMap_cons]
    split
    · exact ih.cons _
    · next q hq =>
      rw [List.map_cons, List.map_cons, hf r q hq]
      exact ih.cons_cons _

/-- The rows updated or, where `f` gives none, deleted. -/
def filterMap (t : Table K) (f : α → Option α) (hf : ∀ r q, f r = some q → K q = K r) :
    Table K where
  rows := t.rows.filterMap f
  primaryKey := t.primaryKey.sublist (map_filterMap_sublist hf t.rows)

@[simp] theorem mem_filterMap {t : Table K} {f : α → Option α}
    {hf : ∀ r q, f r = some q → K q = K r} {q : α} :
    q ∈ (t.filterMap f hf).rows ↔ ∃ r ∈ t.rows, f r = some q :=
  List.mem_filterMap

/-- A statement is given by what its condition says of the rows there are. -/
theorem updateWhere_congr {t : Table K} {p q : α → Bool} {f : α → α} {h : ∀ r, K (f r) = K r}
    (hpq : ∀ r ∈ t.rows, p r = q r) : t.updateWhere p f h = t.updateWhere q f h := by
  refine Table.ext (List.map_congr_left fun r hr => ?_)
  simp only [hpq r hr]

theorem updateWhere_none {t : Table K} {p : α → Bool} {f : α → α} {h : ∀ r, K (f r) = K r}
    (hp : ∀ r ∈ t.rows, p r = false) : t.updateWhere p f h = t := by
  refine Table.ext ((List.map_congr_left fun r hr => ?_).trans (List.map_id t.rows))
  simp [hp r hr]

theorem mem_updateRows {p : α → Bool} {f : α → α} {rows : List α} {r : α} :
    r ∈ updateRows p f rows ↔
      (∃ q ∈ rows, p q = true ∧ f q = r) ∨ (r ∈ rows ∧ p r = false) := by
  simp only [updateRows, List.mem_map]
  constructor
  · rintro ⟨q, hq, rfl⟩
    by_cases hp : p q = true
    · exact .inl ⟨q, hq, hp, by simp [hp]⟩
    · exact .inr (by simpa [hp] using hq)
  · rintro (⟨q, hq, hp, rfl⟩ | ⟨hr, hp⟩)
    · exact ⟨q, hq, by simp [hp]⟩
    · exact ⟨r, hr, by simp [hp]⟩

@[simp] theorem mem_deleteWhere {t : Table K} {p : α → Bool} {r : α} :
    r ∈ (t.deleteWhere p).rows ↔ r ∈ t.rows ∧ p r = false := by
  simp [deleteWhere, List.mem_filter]

/-- **Frame rule of `UPDATE`**: rows outside the statement's reach, before and after. -/
theorem filter_updateRows {p q : α → Bool} {f : α → α} {rows : List α}
    (hq : ∀ r ∈ rows, p r = true → q r = false ∧ q (f r) = false) :
    (updateRows p f rows).filter q = rows.filter q := by
  induction rows with
  | nil => rfl
  | cons r rows ih =>
    have ih := ih fun r' hr' => hq r' (List.mem_cons_of_mem _ hr')
    simp only [updateRows] at ih
    simp only [updateRows, List.map_cons, List.filter_cons, ih]
    by_cases hp : p r = true
    · obtain ⟨h1, h2⟩ := hq r List.mem_cons_self hp
      simp [hp, h1, h2]
    · simp [hp]

/-- **Frame rule of `DELETE`**. -/
theorem filter_deleteWhere {t : Table K} {p q : α → Bool}
    (hq : ∀ r ∈ t.rows, p r = true → q r = false) :
    (t.deleteWhere p).rows.filter q = t.rows.filter q := by
  simp only [deleteWhere, List.filter_filter]
  refine List.filter_congr fun r hr => ?_
  by_cases hp : p r = true
  · simp [hp, hq r hr hp]
  · simp [hp]

/-- An update that a second one of the same rows takes back; the second's predicate does not read
what the first assigns. -/
theorem updateRows_undo {p q : α → Bool} {f g : α → α} {rows : List α}
    (hq : ∀ r ∈ rows, q r = p r) (hqf : ∀ r, q (f r) = q r)
    (hgf : ∀ r ∈ rows, p r = true → g (f r) = r) :
    updateRows q g (updateRows p f rows) = rows := by
  rw [updateRows, updateRows, List.map_map]
  conv_rhs => rw [← List.map_id rows]
  refine List.map_congr_left fun r hr => ?_
  simp only [Function.comp_apply, id_eq]
  by_cases hp : p r = true
  · simp [hp, hqf r, hq r hr, hgf r hr hp]
  · simp [hp, hq r hr]

/-! ## INSERT -/

variable [DecidableEq κ]

/-- `none` when a key is taken. -/
def insert (t : Table K) (rs : List α) : Option (Table K) :=
  if h : ((t.rows ++ rs).map K).Nodup then some ⟨t.rows ++ rs, h⟩ else none

theorem insert_rows {t t' : Table K} {rs : List α} (h : t.insert rs = some t') :
    t'.rows = t.rows ++ rs := by
  rw [insert] at h
  split at h
  · cases h; rfl
  · cases h

/-- The rows that an `INSERT` adds have new keys. -/
theorem insert_new {t t' : Table K} {rs : List α} (h : t.insert rs = some t') {r q : α}
    (hr : r ∈ t.rows) (hq : q ∈ rs) : K r ≠ K q := by
  have hnd := t'.primaryKey
  rw [insert_rows h, List.map_append] at hnd
  exact fun e => (List.nodup_append.1 hnd).2.2 _ (List.mem_map_of_mem hr) _
    (List.mem_map_of_mem hq) e

theorem insert_eq_none {t : Table K} {r : α} : t.insert [r] = none ↔ ∃ o ∈ t.rows, K o = K r := by
  have hnd := t.primaryKey
  rw [insert]
  split
  · rename_i h
    simp only [reduceCtorEq, false_iff]
    rintro ⟨o, ho, hk⟩
    rw [List.map_append, List.nodup_append] at h
    exact h.2.2 _ (List.mem_map_of_mem ho) (K r) (by simp) hk
  · rename_i h
    simp only [true_iff]
    by_contra hno
    refine h ?_
    rw [List.map_append, List.nodup_append]
    refine ⟨hnd, List.nodup_singleton _, ?_⟩
    rintro _ hk _ hr rfl
    obtain ⟨o, ho, hok⟩ := List.mem_map.1 hk
    exact hno ⟨o, ho, hok.trans (List.mem_singleton.1 hr)⟩

/-- `f` assigns the row that has the key already. -/
def upsert (t : Table K) (r : α) (f : α → α) (h : ∀ r, K (f r) = K r) : Table K :=
  match t.insert [r] with
  | some t' => t'
  | none => t.updateWhere (fun q => K q = K r) f h

/-- After an upsert the row of its key is the new one, or the assigned one. -/
theorem mem_upsert {t : Table K} {r q : α} {f : α → α} {h : ∀ r, K (f r) = K r} :
    q ∈ (t.upsert r f h).rows ↔
      (q ∈ t.rows ∧ K q ≠ K r) ∨ (q = r ∧ ∀ o ∈ t.rows, K o ≠ K r) ∨
        ∃ o ∈ t.rows, K o = K r ∧ f o = q := by
  rw [upsert]
  split
  · rename_i t' ht
    have hnew : ∀ o ∈ t.rows, K o ≠ K r := fun o ho =>
      insert_new ht ho (List.mem_singleton_self r)
    rw [insert_rows ht, List.mem_append, List.mem_singleton]
    constructor
    · rintro (hq | rfl)
      · exact .inl ⟨hq, hnew q hq⟩
      · exact .inr (.inl ⟨rfl, hnew⟩)
    · rintro (⟨hq, -⟩ | ⟨rfl, -⟩ | ⟨o, ho, hk, -⟩)
      · exact .inl hq
      · exact .inr rfl
      · exact absurd hk (hnew o ho)
  · rename_i hn
    obtain ⟨o, ho, hk⟩ := insert_eq_none.1 hn
    refine mem_updateRows.trans ?_
    simp only [decide_eq_true_eq, decide_eq_false_iff_not]
    constructor
    · rintro (⟨o, ho, hk, rfl⟩ | hq)
      · exact .inr (.inr ⟨o, ho, hk, rfl⟩)
      · exact .inl hq
    · rintro (hq | ⟨-, hno⟩ | hq)
      · exact .inr hq
      · exact absurd hk (hno o ho)
      · exact .inl hq

end Table
