import Mathlib.Data.Fintype.Card
import Mathlib.Data.List.AList
import Mathlib.Data.Set.Card

/-!
# Finite dictionaries

`Dict κ ν` is Mathlib's association list with one value type. The `if` lemmas rewrite a lookup
after an insertion, an erasure or a `put`; `mem_toList` relates the enumeration a scan runs over
to lookup, and `countP_toList` what it counts to a number of keys. `sum` adds a weight over the
entries, and `sum_insert` is what an insertion changes.
-/

/-- A finite dictionary: entries with distinct keys. -/
abbrev Dict (κ ν : Type _) := AList fun _ : κ => ν

namespace Dict

variable {κ ν : Type _} [DecidableEq κ]

/-- The entries, in the order of the representation. -/
def toList (d : Dict κ ν) : List (κ × ν) := d.entries.map fun e => (e.1, e.2)

theorem mem_toList {d : Dict κ ν} {k : κ} {v : ν} : (k, v) ∈ d.toList ↔ d.lookup k = some v := by
  rw [show d.lookup k = some v ↔ (⟨k, v⟩ : Sigma fun _ : κ => ν) ∈ d.entries from
    AList.mem_lookup_iff]
  simp only [toList, List.mem_map, Prod.mk.injEq]
  constructor
  · rintro ⟨⟨k', v'⟩, he, rfl, rfl⟩
    exact he
  · exact fun h => ⟨_, h, rfl, rfl⟩

omit [DecidableEq κ] in
theorem entries_eq_nil {d : Dict κ ν} : d.entries = [] ↔ d = ∅ := by
  constructor
  · exact fun h => AList.ext h
  · rintro rfl
    rfl

theorem lookup_insert_if (d : Dict κ ν) (k k' : κ) (v : ν) :
    (d.insert k v).lookup k' = if k' = k then some v else d.lookup k' := by
  split
  · subst k'; exact AList.lookup_insert d
  · exact AList.lookup_insert_ne ‹_›

theorem lookup_insert_cases {d : Dict κ ν} {k k' : κ} {v v' : ν}
    (h : (d.insert k v).lookup k' = some v') :
    k' = k ∧ v' = v ∨ k' ≠ k ∧ d.lookup k' = some v' := by
  rw [lookup_insert_if] at h
  split at h
  · next he => exact .inl ⟨he, (Option.some.inj h).symm⟩
  · next he => exact .inr ⟨he, h⟩

theorem lookup_of_insert_eq {d : Dict κ ν} {k : κ} {v : ν} (h : d.insert k v = d) :
    d.lookup k = some v :=
  (congrArg (AList.lookup k) h).symm.trans (AList.lookup_insert d)

theorem lookup_erase_if (d : Dict κ ν) (k k' : κ) :
    (d.erase k).lookup k' = if k' = k then none else d.lookup k' := by
  split
  · subst k'; exact AList.lookup_erase k d
  · exact AList.lookup_erase_ne ‹_›

/-- `none` erases the entry. -/
def put (d : Dict κ ν) (k : κ) : Option ν → Dict κ ν
  | some v => d.insert k v
  | none => d.erase k

@[simp] theorem lookup_put (d : Dict κ ν) (k k' : κ) (o : Option ν) :
    (d.put k o).lookup k' = if k' = k then o else d.lookup k' := by
  cases o with
  | some v => exact lookup_insert_if d k k' v
  | none => exact lookup_erase_if d k k'

omit [DecidableEq κ] in
theorem nodup_keys (d : Dict κ ν) : (d.toList.map Prod.fst).Nodup := by
  rw [toList, List.map_map]
  exact d.nodupKeys

omit [DecidableEq κ] in
theorem nodup_toList (d : Dict κ ν) : d.toList.Nodup := d.nodup_keys.of_map _

theorem countP_toList (d : Dict κ ν) (p : κ × ν → Bool) :
    d.toList.countP p = {k | ∃ v, d.lookup k = some v ∧ p (k, v) = true}.ncard := by
  have hnodup : ((d.toList.filter p).map Prod.fst).Nodup :=
    d.nodup_keys.sublist (List.filter_sublist.map _)
  have hset : {k | ∃ v, d.lookup k = some v ∧ p (k, v) = true} =
      (((d.toList.filter p).map Prod.fst).toFinset : Set κ) := by
    ext k
    simp only [Set.mem_ofPred_eq, List.coe_toFinset, List.mem_map, List.mem_filter, Prod.exists,
      exists_and_right, exists_eq_right, mem_toList]
  rw [hset, Set.ncard_coe_finset, List.toFinset_card_of_nodup hnodup, List.length_map,
    List.countP_eq_length_filter]

theorem finite_keys (d : Dict κ ν) : {k | (d.lookup k).isSome}.Finite := by
  refine (d.toList.map Prod.fst).finite_toSet.subset fun k hk => ?_
  obtain ⟨v, hv⟩ := Option.isSome_iff_exists.1 hk
  exact List.mem_map_of_mem (f := Prod.fst) (mem_toList.2 hv)

theorem nodup_values {d : Dict κ ν}
    (h : ∀ k k' v, d.lookup k = some v → d.lookup k' = some v → k = k') :
    (d.toList.map Prod.snd).Nodup := by
  refine d.nodup_toList.map_on ?_
  rintro ⟨k, v⟩ hv ⟨k', v'⟩ hv' rfl
  rw [h k k' v (mem_toList.1 hv) (mem_toList.1 hv')]

/-- A loop over the entries that erases some of them. -/
def eraseWhere (p : κ → ν → Bool) (d : Dict κ ν) : Dict κ ν :=
  d.toList.foldl (fun d e => if p e.1 e.2 then d.erase e.1 else d) d

theorem lookup_foldl_erase (p : κ → ν → Bool) (k : κ) (es : List (κ × ν)) : ∀ d : Dict κ ν,
    (es.foldl (fun d e => if p e.1 e.2 then d.erase e.1 else d) d).lookup k =
      if es.any fun e => decide (k = e.1) && p e.1 e.2 then none else d.lookup k := by
  induction es with
  | nil => exact fun _ => rfl
  | cons e es ih =>
    intro d
    obtain ⟨k', v⟩ := e
    rw [List.foldl_cons, ih, List.any_cons]
    cases hp : p k' v with
    | false => rw [if_neg Bool.false_ne_true, Bool.and_false, Bool.false_or]
    | true =>
      rw [if_pos rfl, lookup_erase_if, Bool.and_true]
      by_cases hk : k = k'
      · rw [if_pos hk, decide_eq_true hk, Bool.true_or, if_pos rfl, ite_self]
      · rw [if_neg hk, decide_eq_false hk, Bool.false_or]

/-- **The loop erases just the entries that meet the condition.** -/
theorem lookup_eraseWhere (p : κ → ν → Bool) (d : Dict κ ν) (k : κ) :
    (d.eraseWhere p).lookup k = (d.lookup k).filter fun v => !p k v := by
  have hany : (d.toList.any fun e => decide (k = e.1) && p e.1 e.2) = (d.lookup k).any (p k) := by
    rw [Bool.eq_iff_iff, List.any_eq_true, Option.any_eq_true]
    constructor
    · rintro ⟨⟨k', v⟩, he, hp⟩
      simp only [Bool.and_eq_true, decide_eq_true_eq] at hp
      obtain ⟨rfl, hp⟩ := hp
      exact ⟨v, mem_toList.1 he, hp⟩
    · rintro ⟨v, hl, hp⟩
      exact ⟨(k, v), mem_toList.2 hl, by simpa using hp⟩
  rw [eraseWhere, lookup_foldl_erase, hany]
  cases d.lookup k with
  | none => rfl
  | some v => cases hp : p k v <;> simp [Option.filter, hp]

/-- Over finitely many keys every partial function is a dictionary. -/
theorem exists_lookup [Finite κ] (f : κ → Option ν) : ∃ d : Dict κ ν, ∀ k, d.lookup k = f k := by
  obtain ⟨ks, -, hks⟩ := Finite.exists_univ_list κ
  suffices ∀ ks : List κ, ∃ d : Dict κ ν, ∀ k ∈ ks, d.lookup k = f k by
    obtain ⟨d, hd⟩ := this ks
    exact ⟨d, fun k => hd k (hks k)⟩
  intro ks
  induction ks with
  | nil => exact ⟨∅, nofun⟩
  | cons k ks ih =>
    obtain ⟨d, hd⟩ := ih
    refine ⟨d.put k (f k), fun k' hk' => ?_⟩
    rw [lookup_put]
    split
    · next he => rw [he]
    · next he => exact hd k' ((List.mem_cons.1 hk').resolve_left he)

/-! ## Sums over the entries -/

/-- The sum of the weights of the entries. -/
def sum (f : κ → ν → Nat) (d : Dict κ ν) : Nat :=
  d.entries.foldr (fun e n => f e.1 e.2 + n) 0

theorem foldr_kerase (f : κ → ν → Nat) (k : κ) (es : List (Sigma fun _ : κ => ν)) :
    (List.kerase k es).foldr (fun e n => f e.1 e.2 + n) 0 + ((List.dlookup k es).map (f k)).getD 0 =
      es.foldr (fun e n => f e.1 e.2 + n) 0 := by
  induction es with
  | nil => rfl
  | cons e es ih =>
    obtain ⟨k', v⟩ := e
    by_cases h : k = k'
    · subst h
      have hk : List.kerase k ((⟨k, v⟩ : Sigma fun _ : κ => ν) :: es) = es :=
        List.kerase_cons_eq rfl
      rw [hk, List.dlookup_cons_eq, List.foldr_cons, Nat.add_comm]
      rfl
    · have hk : List.kerase k ((⟨k', v⟩ : Sigma fun _ : κ => ν) :: es) =
          ⟨k', v⟩ :: List.kerase k es := List.kerase_cons_ne h
      rw [hk, List.dlookup_cons_ne _ _ h, List.foldr_cons, List.foldr_cons,
        Nat.add_assoc, ih]

/-- **An insertion adds its weight in place of the old one.** -/
theorem sum_insert (f : κ → ν → Nat) (d : Dict κ ν) (k : κ) (v : ν) :
    sum f (d.insert k v) + ((d.lookup k).map (f k)).getD 0 = sum f d + f k v := by
  rw [sum, sum, AList.entries_insert, List.foldr_cons, Nat.add_assoc, Nat.add_comm]
  exact congrArg (· + f k v) (foldr_kerase f k d.entries)

theorem sum_insert_lt {f : κ → ν → Nat} {d : Dict κ ν} {k : κ} {v v' : ν}
    (h : d.lookup k = some v) (hlt : f k v' < f k v) : sum f (d.insert k v') < sum f d := by
  have hsum := sum_insert f d k v'
  rw [h, Option.map_some, Option.getD_some] at hsum
  omega

theorem sum_le_sum {f g : κ → ν → Nat} {d : Dict κ ν}
    (h : ∀ k v, d.lookup k = some v → f k v ≤ g k v) : sum f d ≤ sum g d := by
  have hmem : ∀ e ∈ d.entries, f e.1 e.2 ≤ g e.1 e.2 :=
    fun e he => h e.1 e.2 (AList.mem_lookup_iff.2 he)
  unfold sum
  generalize d.entries = es at hmem
  induction es with
  | nil => exact Nat.le_refl 0
  | cons e es ih =>
    exact Nat.add_le_add (hmem e List.mem_cons_self)
      (ih fun e' he' => hmem e' (List.mem_cons_of_mem _ he'))

theorem le_sum {f : κ → ν → Nat} {d : Dict κ ν} {k : κ} {v : ν} (h : d.lookup k = some v) :
    f k v ≤ sum f d := by
  have hsum := foldr_kerase f k d.entries
  rw [show List.dlookup k d.entries = some v from h, Option.map_some, Option.getD_some] at hsum
  unfold sum
  omega

theorem sum_eq_zero {f : κ → ν → Nat} {d : Dict κ ν}
    (h : ∀ k v, d.lookup k = some v → f k v = 0) : sum f d = 0 := by
  have hle : sum f d ≤ sum (fun _ _ => 0) d := sum_le_sum fun k v hl => Nat.le_of_eq (h k v hl)
  have hzero : sum (fun _ _ => 0) d = 0 := by
    unfold sum
    induction d.entries with
    | nil => rfl
    | cons e es ih => rw [List.foldr_cons, ih]
  omega

end Dict
