import HashBox.Lib.Dict

/-!
# Files with hard links, and crashes

A directory tree as the names of its files: an entry maps a name to an inode number, several names
may share an inode, and a number is never used again. `crash` is a loss of power: data that was not
synced may be anything afterwards, and, as no directory is ever synced, any set of the entries that
the tree has or had may be left.

`Call` is what one system call may do when files are *published by link*: a file is written under a
private name that one thread owns, synced, and then linked to its public name. `Published` says
that whatever a public name refers to, or may refer to after a crash, is synced and good; every
call keeps it, and keeps other threads' private files (`Call.owned`) and the public files that are
not removed (`Call.public`).
-/

/-- A regular file. -/
structure Inode (β : Type _) where
  content : List β
  /-- Whether the content would survive a crash. -/
  synced : Bool
  modTime : Nat
deriving DecidableEq, Repr

structure Files (κ β : Type _) [DecidableEq κ] where
  inodes : List (Inode β)
  entries : Dict κ Nat
  /-- The entries removed since the last crash. -/
  removed : List (κ × Nat)
  lt_length : ∀ p i, entries.lookup p = some i ∨ (p, i) ∈ removed → i < inodes.length

namespace Files

variable {κ β : Type _} [DecidableEq κ]

def empty : Files κ β where
  inodes := []
  entries := ∅
  removed := []
  lt_length _ _ h := by rcases h with h | h <;> cases h

variable {fs fs' : Files κ β} {p q : κ} {i j n now : Nat} {node : Inode β}

def lookup (fs : Files κ β) (p : κ) : Option Nat := fs.entries.lookup p

def inode (fs : Files κ β) (i : Nat) : Option (Inode β) := fs.inodes[i]?

/-- The name refers to the inode, or did. -/
def Had (fs : Files κ β) (p : κ) (i : Nat) : Prop := fs.lookup p = some i ∨ (p, i) ∈ fs.removed

instance (fs : Files κ β) (p : κ) (i : Nat) : Decidable (fs.Had p i) :=
  inferInstanceAs (Decidable (_ ∨ _))

theorem Had.lt (h : fs.Had p i) : i < fs.inodes.length := fs.lt_length p i h

theorem exists_inode (h : fs.lookup p = some i) : ∃ node, fs.inode i = some node :=
  ⟨_, List.getElem?_eq_getElem (Had.lt (.inl h))⟩

/-! ## System calls -/

/-- `open` with `O_CREAT` and `O_EXCL`: the tree and the new file's inode number. -/
def openExcl (fs : Files κ β) (p : κ) (now : Nat) : Option (Files κ β × Nat) :=
  match fs.lookup p with
  | some _ => none
  | none => some
    ({ inodes := fs.inodes ++ [⟨[], false, now⟩]
       entries := fs.entries.insert p fs.inodes.length
       removed := fs.removed
       lt_length := fun q j h => by
        rw [List.length_append, List.length_singleton]
        rw [Dict.lookup_insert_if] at h
        split at h
        · rcases h with h | h
          · cases h; omega
          · exact Nat.lt_succ_of_lt (fs.lt_length q j (.inr h))
        · exact Nat.lt_succ_of_lt (fs.lt_length q j h) },
      fs.inodes.length)

def modify (fs : Files κ β) (i : Nat) (f : Inode β → Inode β) : Files κ β where
  inodes := fs.inodes.modify i f
  entries := fs.entries
  removed := fs.removed
  lt_length p j h := by rw [List.length_modify]; exact fs.lt_length p j h

/-- `write` at the end of the file. -/
def append (fs : Files κ β) (i : Nat) (bytes : List β) (now : Nat) : Files κ β :=
  fs.modify i fun node => ⟨node.content ++ bytes, false, now⟩

def fsync (fs : Files κ β) (i : Nat) : Files κ β :=
  fs.modify i fun node => { node with synced := true }

inductive LinkError
  | notExist
  | exist
deriving DecidableEq, Repr

/-- `link`: `new` becomes another name of the file `old`. -/
def link (fs : Files κ β) (old new : κ) : Except LinkError (Files κ β) :=
  match ho : fs.lookup old, fs.lookup new with
  | none, _ => .error .notExist
  | some _, some _ => .error .exist
  | some i, none => .ok
    { inodes := fs.inodes
      entries := fs.entries.insert new i
      removed := fs.removed
      lt_length := fun q j h => by
        rw [Dict.lookup_insert_if] at h
        split at h
        · rcases h with h | h
          · cases h; exact fs.lt_length old _ (.inl ho)
          · exact fs.lt_length q j (.inr h)
        · exact fs.lt_length q j h }

/-- `unlink`; a name that is not there stays away. -/
def remove (fs : Files κ β) (p : κ) : Files κ β where
  inodes := fs.inodes
  entries := fs.entries.erase p
  removed := ((fs.lookup p).map fun i => (p, i)).toList ++ fs.removed
  lt_length q j h := by
    rw [Dict.lookup_erase_if, List.mem_append, Option.mem_toList, Option.map_eq_some_iff] at h
    rcases h with h | ⟨i, hi, he⟩ | h
    · split at h
      · cases h
      · exact fs.lt_length q j (.inl h)
    · cases he; exact fs.lt_length p j (.inl hi)
    · exact fs.lt_length q j (.inr h)

/-- The directory that has the entries of a list. -/
def ofEntries (es : List (κ × Nat)) : Dict κ Nat := es.foldr (fun e d => d.insert e.1 e.2) ∅

theorem mem_of_lookup_ofEntries {es : List (κ × Nat)} (h : (ofEntries es).lookup p = some i) :
    (p, i) ∈ es := by
  induction es with
  | nil => cases h
  | cons e es ih =>
    rw [ofEntries, List.foldr_cons, Dict.lookup_insert_if] at h
    split at h
    · next hp =>
      cases h
      rw [hp]
      exact List.mem_cons_self
    · exact List.mem_cons_of_mem _ (ih h)

/-- The machine stops: `kept` of the entries are left, and `torn` of what was not synced. -/
def crash (fs : Files κ β) (kept : List (κ × Nat)) (torn : Nat → List β) : Files κ β where
  inodes := fs.inodes.mapIdx fun i node =>
    if node.synced then node else ⟨torn i, true, node.modTime⟩
  entries := ofEntries (kept.filter fun e => fs.Had e.1 e.2)
  removed := []
  lt_length q j h := by
    rw [List.length_mapIdx]
    rcases h with h | h
    · exact fs.lt_length q j (of_decide_eq_true (List.mem_filter.1 (mem_of_lookup_ofEntries h)).2)
    · cases h

/-! ## What they do -/

theorem lookup_openExcl (h : fs.openExcl p now = some (fs', n)) (q : κ) :
    fs'.lookup q = if q = p then some n else fs.lookup q := by
  unfold openExcl at h
  split at h
  · cases h
  · cases h
    exact Dict.lookup_insert_if ..

theorem openExcl_spec (h : fs.openExcl p now = some (fs', n)) :
    fs.lookup p = none ∧ n = fs.inodes.length ∧ fs'.removed = fs.removed ∧
      fs'.inodes = fs.inodes ++ [⟨[], false, now⟩] := by
  unfold openExcl at h
  split at h
  · cases h
  · next hp => cases h; exact ⟨hp, rfl, rfl, rfl⟩

theorem had_openExcl (h : fs.openExcl p now = some (fs', n)) (hq : fs'.Had q j) :
    fs.Had q j ∨ (q = p ∧ j = n) := by
  rw [Had, lookup_openExcl h, (openExcl_spec h).2.2.1] at hq
  split at hq
  · next he =>
    rcases hq with hq | hq
    · cases hq; exact .inr ⟨he, rfl⟩
    · exact .inl (.inr hq)
  · exact .inl hq

theorem inode_openExcl (h : fs.openExcl p now = some (fs', n)) :
    fs'.inode n = some ⟨[], false, now⟩ := by
  obtain ⟨-, rfl, -, he⟩ := openExcl_spec h
  rw [inode, he, List.getElem?_append_right (Nat.le_refl _), Nat.sub_self]
  rfl

theorem inode_openExcl_of_lt (h : fs.openExcl p now = some (fs', n)) (hj : j < fs.inodes.length) :
    fs'.inode j = fs.inode j := by
  rw [inode, (openExcl_spec h).2.2.2, List.getElem?_append_left hj]
  rfl

theorem inode_modify (fs : Files κ β) (i j : Nat) (f : Inode β → Inode β) :
    (fs.modify i f).inode j = if j = i then (fs.inode i).map f else fs.inode j := by
  rw [inode, modify, List.getElem?_modify]
  split
  · next h => rw [if_pos h.symm, ← h]; rfl
  · next h => rw [if_neg (Ne.symm h)]; exact id_map' _

theorem inode_modify_self {f : Inode β → Inode β} (h : fs.inode i = some node) :
    (fs.modify i f).inode i = some (f node) := by
  rw [inode_modify, if_pos rfl, h, Option.map_some]

theorem link_ok (h : fs.link p q = .ok fs') :
    ∃ i, fs.lookup p = some i ∧ fs.lookup q = none ∧ fs'.inodes = fs.inodes ∧
      fs'.removed = fs.removed ∧
      ∀ r, fs'.lookup r = if r = q then some i else fs.lookup r := by
  unfold link at h
  split at h
  · cases h
  · cases h
  · next i ho hq => cases h; exact ⟨i, ho, hq, rfl, rfl, fun r => Dict.lookup_insert_if ..⟩

theorem link_exist (h : fs.link p q = .error .exist) : (fs.lookup q).isSome := by
  unfold link at h
  split at h
  · cases h
  · next hq => rw [hq]; rfl
  · cases h

theorem lookup_remove (fs : Files κ β) (p q : κ) :
    (fs.remove p).lookup q = if q = p then none else fs.lookup q :=
  Dict.lookup_erase_if ..

theorem had_remove (h : (fs.remove p).Had q i) : fs.Had q i := by
  rw [Had, lookup_remove] at h
  rcases h with h | h
  · split at h
    · cases h
    · exact .inl h
  · rcases List.mem_append.1 h with h | h
    · rw [Option.mem_toList, Option.map_eq_some_iff] at h
      obtain ⟨j, hj, he⟩ := h
      cases he
      exact .inl hj
    · exact .inr h

theorem had_crash {kept : List (κ × Nat)} {torn : Nat → List β} (h : (fs.crash kept torn).Had q i) :
    fs.Had q i := by
  rcases h with h | h
  · exact of_decide_eq_true (List.mem_filter.1 (mem_of_lookup_ofEntries h)).2
  · cases h

/-- What was synced survives a crash. -/
theorem inode_crash (kept : List (κ × Nat)) (torn : Nat → List β) (hi : fs.inode i = some node)
    (hs : node.synced = true) : (fs.crash kept torn).inode i = some node := by
  rw [inode, crash, List.getElem?_mapIdx, show fs.inodes[i]? = some node from hi, Option.map_some,
    if_pos hs]

/-! ## Publishing by link -/

/-- The private file of a thread: `p` is its only name, now and after a crash. -/
structure Owned (fs : Files κ β) (p : κ) (i : Nat) : Prop where
  lookup : fs.lookup p = some i
  only : ∀ q, fs.Had q i → q = p

theorem Owned.modify {f : Inode β → Inode β} (h : fs.Owned p i) : (fs.modify j f).Owned p i :=
  ⟨h.lookup, h.only⟩

theorem Owned.openExcl (h : fs.openExcl p now = some (fs', n)) : fs'.Owned p n := by
  refine ⟨by rw [lookup_openExcl h, if_pos rfl], fun q hq => ?_⟩
  rcases had_openExcl h hq with hq | ⟨hq, -⟩
  · have hlt := hq.lt
    have hn := (openExcl_spec h).2.1
    omega
  · exact hq

section
variable (isPublic : κ → Prop) (good : κ → List β → Prop)

/-- What a public name refers to, or may refer to after a crash, is synced and good. -/
def Published (fs : Files κ β) : Prop :=
  ∀ p i, isPublic p → fs.Had p i →
    ∃ node, fs.inode i = some node ∧ node.synced = true ∧ good p node.content

/-- One system call of a thread whose private name and inode are `own`; only while it is `sweeping`
does it remove public names. -/
inductive Call (sweeping : Prop) (own : Option (κ × Nat)) (fs : Files κ β) : Files κ β → Prop
  | stay : Call sweeping own fs fs
  | create {fs' : Files κ β} {p : κ} {n now : Nat} : ¬ isPublic p →
      fs.openExcl p now = some (fs', n) → Call sweeping own fs fs'
  | append {p : κ} {i : Nat} (bytes : List β) (now : Nat) : own = some (p, i) → ¬ isPublic p →
      fs.Owned p i → Call sweeping own fs (fs.append i bytes now)
  | fsync {p : κ} {i : Nat} : own = some (p, i) → Call sweeping own fs (fs.fsync i)
  | link {fs' : Files κ β} {p q : κ} {i : Nat} {node : Inode β} : own = some (p, i) →
      fs.lookup p = some i → fs.inode i = some node → node.synced = true → good q node.content →
      fs.link p q = .ok fs' → Call sweeping own fs fs'
  | discard {p : κ} {i : Nat} : own = some (p, i) → fs.lookup p = some i → ¬ isPublic p →
      Call sweeping own fs (fs.remove p)
  | sweep {q : κ} : sweeping → isPublic q → Call sweeping own fs (fs.remove q)

end

variable {isPublic : κ → Prop} {good : κ → List β → Prop} {sweeping : Prop}
  {own : Option (κ × Nat)}

theorem Published.empty : Published isPublic good (empty : Files κ β) :=
  fun _ _ _ h => by rcases h with h | h <;> cases h

theorem Published.crash (h : Published isPublic good fs) (kept : List (κ × Nat))
    (torn : Nat → List β) : Published isPublic good (fs.crash kept torn) := by
  intro p i hp hi
  obtain ⟨node, hn, hs, hg⟩ := h p i hp (had_crash hi)
  exact ⟨node, inode_crash kept torn hn hs, hs, hg⟩

/-- **Every call keeps the public files good.** -/
theorem Call.published (hc : Call isPublic good sweeping own fs fs')
    (h : Published isPublic good fs) : Published isPublic good fs' := by
  intro q j hq hj
  cases hc with
  | stay => exact h q j hq hj
  | create hp ho =>
    rcases had_openExcl ho hj with hj | ⟨rfl, -⟩
    · obtain ⟨node, hn, hs, hg⟩ := h q j hq hj
      exact ⟨node, by rw [inode_openExcl_of_lt ho hj.lt, hn], hs, hg⟩
    · exact absurd hq hp
  | @append p i bytes now hown hp ho =>
    obtain ⟨node, hn, hs, hg⟩ := h q j hq hj
    have hne : j ≠ i := by
      rintro rfl
      exact hp (ho.only q hj ▸ hq)
    exact ⟨node, by rw [Files.append, inode_modify, if_neg hne, hn], hs, hg⟩
  | fsync hown =>
    obtain ⟨node, hn, hs, hg⟩ := h q j hq hj
    rw [Files.fsync, inode_modify]
    split
    · next he =>
      rw [← he, hn]
      exact ⟨_, rfl, rfl, hg⟩
    · exact ⟨node, hn, hs, hg⟩
  | link hown hp hn hs hg hl =>
    obtain ⟨i, hi, -, hnodes, hrem, hlook⟩ := link_ok hl
    rw [inode, hnodes]
    rw [Had, hlook, hrem] at hj
    split at hj
    · next he =>
      rcases hj with hj | hj
      · cases hj
        cases hi.symm.trans hp
        exact ⟨_, hn, hs, he ▸ hg⟩
      · exact h q j hq (.inr hj)
    · exact h q j hq hj
  | discard => exact h q j hq (had_remove hj)
  | sweep => exact h q j hq (had_remove hj)

/-- **What a thread knows of its private file survives the calls of others.** -/
theorem Call.private (hc : Call isPublic good sweeping own fs fs') (hp : ¬ isPublic p)
    (hl : fs.lookup p = some i) (hne : ∀ e, own = some e → e.2 ≠ i) :
    fs'.lookup p = some i ∧ fs'.inode i = fs.inode i ∧ ((fs.Owned p i) → fs'.Owned p i) := by
  have had : fs.Had p i := .inl hl
  suffices fs'.lookup p = some i ∧ fs'.inode i = fs.inode i ∧ ∀ q, fs'.Had q i → fs.Had q i from
    ⟨this.1, this.2.1, fun h => ⟨this.1, fun q hq => h.only q (this.2.2 q hq)⟩⟩
  cases hc with
  | stay => exact ⟨hl, rfl, fun _ => id⟩
  | create hq ho =>
    obtain ⟨hnone, hn, -, -⟩ := openExcl_spec ho
    refine ⟨?_, inode_openExcl_of_lt ho had.lt, fun r hr => ?_⟩
    · rw [lookup_openExcl ho, if_neg, hl]
      rintro rfl
      rw [hl] at hnone
      cases hnone
    · rcases had_openExcl ho hr with hr | ⟨-, he⟩
      · exact hr
      · have := had.lt
        omega
  | append bytes now hown hq ho =>
    exact ⟨hl, by rw [Files.append, inode_modify, if_neg (hne _ hown).symm], fun _ => id⟩
  | fsync hown =>
    exact ⟨hl, by rw [Files.fsync, inode_modify, if_neg (hne _ hown).symm], fun _ => id⟩
  | link hown hq hn hs hg hlink =>
    obtain ⟨j, hj, hnone, hnodes, hrem, hlook⟩ := link_ok hlink
    have hji : j ≠ i := by
      rw [hq] at hj
      cases hj
      exact hne _ hown
    refine ⟨?_, by rw [inode, hnodes]; rfl, fun r hr => ?_⟩
    · rw [hlook, if_neg, hl]
      rintro rfl
      rw [hl] at hnone
      cases hnone
    · rw [Had, hlook, hrem] at hr
      split at hr
      · rcases hr with hr | hr
        · cases hr; exact absurd rfl hji
        · exact .inr hr
      · exact hr
  | discard hown hq hnp =>
    refine ⟨?_, rfl, fun r hr => had_remove hr⟩
    rw [lookup_remove, if_neg, hl]
    rintro rfl
    rw [hl] at hq
    cases hq
    exact hne _ hown rfl
  | sweep _ hq =>
    refine ⟨?_, rfl, fun r hr => had_remove hr⟩
    rw [lookup_remove, if_neg, hl]
    rintro rfl
    exact hp hq

/-- **A public name keeps its file until it is removed.** -/
theorem Call.public (hc : Call isPublic good sweeping own fs fs') (hp : isPublic p)
    (hl : fs.lookup p = some i) :
    fs'.lookup p = some i ∨ (sweeping ∧ fs'.lookup p = none) := by
  cases hc with
  | stay => exact .inl hl
  | create hq ho =>
    rw [lookup_openExcl ho, if_neg, hl]
    · exact .inl rfl
    · rintro rfl
      exact hq hp
  | append => exact .inl hl
  | fsync => exact .inl hl
  | link hown hq hn hs hg hlink =>
    obtain ⟨j, -, hnone, -, -, hlook⟩ := link_ok hlink
    rw [hlook, if_neg, hl]
    · exact .inl rfl
    · rintro rfl
      rw [hl] at hnone
      cases hnone
  | discard hown hq hnp =>
    rw [lookup_remove, if_neg, hl]
    · exact .inl rfl
    · rintro rfl
      exact hnp hp
  | sweep hs hq =>
    rw [lookup_remove]
    split
    · exact .inr ⟨hs, rfl⟩
    · exact .inl hl

/-- **A published file is never written.** -/
theorem Call.inode (hc : Call isPublic good sweeping own fs fs')
    (h : Published isPublic good fs) (hp : isPublic p) (hl : fs.lookup p = some i) :
    fs'.inode i = fs.inode i := by
  have had : fs.Had p i := .inl hl
  cases hc with
  | stay => rfl
  | create hq ho => exact inode_openExcl_of_lt ho had.lt
  | append bytes now hown hq ho =>
    rw [Files.append, inode_modify, if_neg]
    rintro rfl
    exact hq (ho.only p had ▸ hp)
  | fsync hown =>
    rw [Files.fsync, inode_modify]
    split
    · next he =>
      -- syncing a synced file changes nothing
      obtain ⟨⟨content, synced, modTime⟩, hn, hs, -⟩ := h p i hp had
      rw [← he, hn]
      cases hs
      rfl
    · rfl
  | link hown hq hn hs hg hlink =>
    obtain ⟨-, -, -, hnodes, -, -⟩ := link_ok hlink
    rw [Files.inode, hnodes]
    rfl
  | discard => rfl
  | sweep => rfl

end Files
