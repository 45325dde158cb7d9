import Mathlib.Data.List.Basic
import Mathlib.Data.List.Nodup
import Mathlib.Order.Lattice

/-!
# Pages of a sorted query

`SortKey` is an `ORDER BY` clause: a total preorder on the rows. A query puts its rows in some order
that the clause allows (`Sorts`), another query maybe in another one, where rows tie. The pages of
one query each are together the rows exactly where no group of ties lies across a page's border
(`pages_exact`); with a clause under which no two rows tie this is always so (`not_straddles`).
-/

namespace Paging

/-! ## Sort keys -/

structure SortKey (α : Type _) where
  le : α → α → Bool
  total : ∀ a b, le a b || le b a
  trans : ∀ a b c, le a b → le b c → le a c

namespace SortKey

variable {α κ : Type _}

/-- `… ASC` -/
def asc [LinearOrder κ] (f : α → κ) : SortKey α where
  le a b := decide (f a ≤ f b)
  total a b := by
    rw [Bool.or_eq_true, decide_eq_true_iff, decide_eq_true_iff]
    exact le_total (f a) (f b)
  trans a b c hab hbc := by
    rw [decide_eq_true_iff] at *
    exact le_trans hab hbc

/-- `… DESC` -/
def desc [LinearOrder κ] (f : α → κ) : SortKey α where
  le a b := decide (f b ≤ f a)
  total a b := (asc f).total b a
  trans a b c hab hbc := (asc f).trans c b a hbc hab

/-- `…, …`: the second key among rows that tie under the first. -/
def andThen (s t : SortKey α) : SortKey α where
  le a b := s.le a b && (!s.le b a || t.le a b)
  total a b := by
    have hs := s.total a b
    have ht := t.total a b
    cases hab : s.le a b <;> cases hba : s.le b a <;> simp_all
  trans a b c hab hbc := by
    have hac := s.trans a b c
    have hca : s.le c a = true → s.le b a = true ∧ s.le c b = true := fun h =>
      ⟨s.trans b c a (Bool.and_eq_true_iff.1 hbc).1 h,
        s.trans c a b h (Bool.and_eq_true_iff.1 hab).1⟩
    have ht := t.trans a b c
    simp only [Bool.and_eq_true, Bool.or_eq_true, Bool.not_eq_true'] at hab hbc ⊢
    refine ⟨hac hab.1 hbc.1, ?_⟩
    cases h : s.le c a with
    | false => exact .inl rfl
    | true =>
      obtain ⟨hba, hcb⟩ := hca h
      exact .inr (ht (hab.2.resolve_left (by simp [hba])) (hbc.2.resolve_left (by simp [hcb])))

/-- Rows that the clause leaves in any order. -/
def Tie (s : SortKey α) (a b : α) : Prop := s.le a b = true ∧ s.le b a = true

theorem tie_asc [LinearOrder κ] {f : α → κ} {a b : α} : (asc f).Tie a b ↔ f a = f b := by
  simp only [Tie, asc, decide_eq_true_iff]
  exact ⟨fun h => le_antisymm h.1 h.2, fun h => ⟨le_of_eq h, le_of_eq h.symm⟩⟩

theorem tie_desc [LinearOrder κ] {f : α → κ} {a b : α} : (desc f).Tie a b ↔ f a = f b := by
  simp only [Tie, desc, decide_eq_true_iff]
  exact ⟨fun h => le_antisymm h.2 h.1, fun h => ⟨le_of_eq h.symm, le_of_eq h⟩⟩

theorem tie_andThen {s t : SortKey α} {a b : α} :
    (s.andThen t).Tie a b ↔ s.Tie a b ∧ t.Tie a b := by
  simp only [Tie, andThen, Bool.and_eq_true, Bool.or_eq_true, Bool.not_eq_true']
  constructor
  · rintro ⟨⟨hab, ht⟩, hba, ht'⟩
    exact ⟨⟨hab, hba⟩, ht.resolve_left (by simp [hba]), ht'.resolve_left (by simp [hab])⟩
  · rintro ⟨⟨hab, hba⟩, ht, ht'⟩
    exact ⟨⟨hab, .inr ht⟩, hba, .inr ht'⟩

theorem refl (s : SortKey α) (a : α) : s.le a a = true := by simpa using s.total a a

end SortKey

variable {α : Type _} (s : SortKey α)

/-- An order that a query may return its rows in. -/
structure Sorts (rows order : List α) : Prop where
  perm : order.Perm rows
  sorted : order.Pairwise fun a b => s.le a b = true

/-- `LIMIT … OFFSET …` -/
def page (order : List α) (limit offset : Nat) : List α := (order.drop offset).take limit

/-- The pages at the offsets below `total`; each is a query of its own. -/
def pages (limit total : Nat) (order : Nat → List α) : List α :=
  (List.range ((total + limit - 1) / limit)).flatMap fun k => page (order k) limit (k * limit)

/-- Rows that tie lie on both sides of the border after the first `n`: fewer come before them, and
more come before them or tie. -/
def Straddles (rows : List α) (n : Nat) : Prop :=
  ∃ x ∈ rows, rows.countP (fun y => !s.le x y) < n ∧ n < rows.countP fun y => s.le y x

instance (rows : List α) (n : Nat) : Decidable (Straddles s rows n) :=
  inferInstanceAs (Decidable (∃ x ∈ rows, _))

variable {s} {rows order order' : List α} {n : Nat}

theorem sorts_mergeSort (s : SortKey α) (rows : List α) : Sorts s rows (rows.mergeSort s.le) :=
  ⟨List.mergeSort_perm rows s.le, List.pairwise_mergeSort s.trans s.total rows⟩

theorem Sorts.le_of_le (h : Sorts s rows order) {i j : Nat} {a b : α} (hij : i ≤ j)
    (ha : order[i]? = some a) (hb : order[j]? = some b) : s.le a b = true := by
  rcases Nat.lt_or_eq_of_le hij with hlt | rfl
  · obtain ⟨hi, rfl⟩ := List.getElem?_eq_some_iff.1 ha
    obtain ⟨hj, rfl⟩ := List.getElem?_eq_some_iff.1 hb
    exact List.pairwise_iff_getElem.1 h.sorted i j hi hj hlt
  · cases ha.symm.trans hb
    exact s.refl a

theorem Sorts.le_countP (h : Sorts s rows order) {p : α → Bool} (hn : n ≤ order.length)
    (hp : ∀ i a, i < n → order[i]? = some a → p a = true) : n ≤ rows.countP p := by
  rw [← h.perm.countP_eq p]
  calc n = (order.take n).length := (List.length_take_of_le hn).symm
    _ = (order.take n).countP p := by
      refine (List.countP_eq_length.2 fun a ha => ?_).symm
      obtain ⟨i, hi⟩ := List.mem_iff_getElem?.1 ha
      rw [List.getElem?_take] at hi
      split at hi
      · next hlt => exact hp i a hlt hi
      · cases hi
    _ ≤ order.countP p := List.Sublist.countP_le (List.take_sublist n order)

theorem Sorts.countP_le (h : Sorts s rows order) {p : α → Bool}
    (hp : ∀ i a, n ≤ i → order[i]? = some a → p a = false) : rows.countP p ≤ n := by
  have hrest : (order.drop n).countP p = 0 := by
    refine List.countP_eq_zero.2 fun a ha => ?_
    obtain ⟨i, hi⟩ := List.mem_iff_getElem?.1 ha
    rw [List.getElem?_drop] at hi
    rw [hp (n + i) a (Nat.le_add_right n i) hi]
    exact Bool.false_ne_true
  rw [← h.perm.countP_eq p, ← List.take_append_drop n order, List.countP_append, hrest]
  exact Nat.le_trans List.countP_le_length (List.length_take_le n order)

/-! ## Without ties across a border -/

/-- **The rows before a border** at which no ties are parted are those before the row after it. -/
theorem Sorts.take_eq (h : Sorts s rows order) (hn : ¬ Straddles s rows n) {x : α}
    (hx : order[n]? = some x) : order.take n = order.filter fun y => !s.le x y := by
  have hlen : n < order.length := (List.getElem?_eq_some_iff.1 hx).1
  have hbefore : ∀ i y, i < n → order[i]? = some y → (!s.le x y) = true := by
    intro i y hi hy
    by_contra hle
    rw [Bool.not_eq_true, Bool.not_eq_false'] at hle
    refine hn ⟨x, h.perm.mem_iff.1 (List.mem_of_getElem? hx), ?_, ?_⟩
    · -- the rows before `x` are before `y`
      refine Nat.lt_of_le_of_lt (h.countP_le fun j z hj hz => ?_) hi
      rw [s.trans x y z hle (h.le_of_le hj hy hz)]
      rfl
    · exact h.le_countP hlen fun j z hj hz => h.le_of_le (Nat.le_of_lt_succ hj) hz hx
  have hfirst : (order.take n).filter (fun y => !s.le x y) = order.take n := by
    refine List.filter_eq_self.2 fun y hy => ?_
    obtain ⟨i, hi⟩ := List.mem_iff_getElem?.1 hy
    rw [List.getElem?_take] at hi
    split at hi
    · next hlt => exact hbefore i y hlt hi
    · cases hi
  have hlast : (order.drop n).filter (fun y => !s.le x y) = [] := by
    refine List.filter_eq_nil_iff.2 fun y hy => ?_
    obtain ⟨i, hi⟩ := List.mem_iff_getElem?.1 hy
    rw [List.getElem?_drop] at hi
    rw [h.le_of_le (Nat.le_add_right n i) hx hi]
    exact Bool.false_ne_true
  conv_rhs => rw [← List.take_append_drop n order, List.filter_append, hfirst, hlast,
    List.append_nil]

/-- The row after such a border is in no order after the one of another order. -/
theorem Sorts.border_le (h : Sorts s rows order) (h' : Sorts s rows order')
    (hn : ¬ Straddles s rows n) {x x' : α} (hx : order[n]? = some x) (hx' : order'[n]? = some x') :
    s.le x x' = true := by
  by_contra hle
  rw [Bool.not_eq_true] at hle
  -- the first `n + 1` rows of `order'` are among the `n` before `x`
  have hlen : n < order.length := (List.getElem?_eq_some_iff.1 hx).1
  have hlen' : n + 1 ≤ order'.length := (List.getElem?_eq_some_iff.1 hx').1
  have hmany : n + 1 ≤ rows.countP fun y => !s.le x y := by
    refine h'.le_countP hlen' fun i y hi hy => ?_
    have hyx := h'.le_of_le (Nat.le_of_lt_succ hi) hy hx'
    rw [Bool.not_eq_true', ← Bool.not_eq_true]
    exact fun hxy => Bool.false_ne_true (hle.symm.trans (s.trans x y x' hxy hyx))
  have hfew : (rows.countP fun y => !s.le x y) = n := by
    rw [← h.perm.countP_eq, List.countP_eq_length_filter, ← h.take_eq hn hx,
      List.length_take_of_le (Nat.le_of_lt hlen)]
  omega

/-- **The rows before such a border are the same in every order.** -/
theorem Sorts.take_perm (h : Sorts s rows order) (h' : Sorts s rows order')
    (hn : ¬ Straddles s rows n) : (order.take n).Perm (order'.take n) := by
  have hperm := h.perm.trans h'.perm.symm
  cases hx : order[n]? with
  | none =>
    have hlen := List.getElem?_eq_none_iff.1 hx
    rw [List.take_of_length_le hlen, List.take_of_length_le (hperm.length_eq ▸ hlen)]
    exact hperm
  | some x =>
    have hlen : n < order'.length := hperm.length_eq ▸ (List.getElem?_eq_some_iff.1 hx).1
    have hx' := List.getElem?_eq_getElem hlen
    have hle := h.border_le h' hn hx hx'
    have hge := h'.border_le h hn hx' hx
    have hsame : (fun y => !s.le x y) = fun y => !s.le order'[n] y := by
      funext y
      refine congrArg _ (Bool.eq_iff_iff.2 ⟨s.trans _ _ _ hge, s.trans _ _ _ hle⟩)
    rw [h.take_eq hn hx, h'.take_eq hn hx', hsame]
    exact hperm.filter _

theorem pages_perm {limit : Nat} {orders : Nat → List α} (h : Sorts s rows order)
    (horders : ∀ k, Sorts s rows (orders k)) (hn : ∀ k, ¬ Straddles s rows (k * limit)) (N : Nat) :
    ((List.range N).flatMap fun k => page (orders k) limit (k * limit)).Perm
      (order.take (N * limit)) := by
  induction N with
  | zero => rw [Nat.zero_mul, List.take_zero]; exact .refl _
  | succ N ih =>
    rw [List.range_succ, List.flatMap_append, List.flatMap_singleton]
    refine (ih.append_right _).trans ?_
    refine (((h.take_perm (horders N) (hn N)).append_right _).trans ?_).trans
      ((horders N).take_perm h (hn (N + 1)))
    rw [page, Nat.succ_mul, List.take_add]

/-! ## With ties across a border -/

/-- Two rows at a border that tie may be exchanged. -/
theorem Sorts.swap (h : Sorts s rows order) {a c : List α} {p q : α}
    (ho : order = a ++ p :: q :: c) (hqp : s.le q p = true) :
    Sorts s rows (a ++ q :: p :: c) := by
  subst ho
  refine ⟨((List.Perm.swap p q c).append_left a).trans h.perm, ?_⟩
  obtain ⟨ha, hpqc, hcross⟩ := List.pairwise_append.1 h.sorted
  obtain ⟨hp, hqc⟩ := List.pairwise_cons.1 hpqc
  obtain ⟨hq, hc⟩ := List.pairwise_cons.1 hqc
  refine List.pairwise_append.2 ⟨ha, ?_, fun x hx y hy => hcross x hx y ?_⟩
  · refine List.pairwise_cons.2 ⟨fun y hy => ?_, List.pairwise_cons.2 ⟨fun y hy => ?_, hc⟩⟩
    · rcases List.mem_cons.1 hy with rfl | hy
      · exact hqp
      · exact hq y hy
    · exact hp y (List.mem_cons_of_mem _ hy)
  · simp only [List.mem_cons] at hy ⊢
    tauto

/-- A border that parts ties lies between two rows that tie, in every order. -/
theorem Sorts.border_tie (h : Sorts s rows order) (hn : Straddles s rows (n + 1)) :
    ∃ p q, order[n]? = some p ∧ order[n + 1]? = some q ∧ s.le q p = true := by
  obtain ⟨x, -, hfew, hmany⟩ := hn
  have hlen : n + 1 < order.length := by
    rw [h.perm.length_eq]
    exact Nat.lt_of_lt_of_le hmany List.countP_le_length
  have hp := List.getElem?_eq_getElem (Nat.lt_of_succ_lt hlen)
  have hq := List.getElem?_eq_getElem hlen
  refine ⟨_, _, hp, hq, s.trans _ x _ ?_ ?_⟩
  · by_contra hle
    refine Nat.not_le.2 hmany (h.countP_le fun i y hi hy => ?_)
    rw [← Bool.not_eq_true]
    exact fun hyx => hle (s.trans _ y _ (h.le_of_le hi hq hy) hyx)
  · by_contra hle
    refine Nat.not_le.2 hfew (h.le_countP (Nat.le_of_lt hlen) fun i y hi hy => ?_)
    rw [Bool.not_eq_true', ← Bool.not_eq_true]
    exact fun hxy => hle (s.trans _ y _ hxy (h.le_of_le (Nat.le_of_lt_succ hi) hy hp))

theorem not_straddles_zero (rows : List α) : ¬ Straddles s rows 0 :=
  fun ⟨_, _, hfew, _⟩ => Nat.not_lt_zero _ hfew

theorem not_straddles (hties : ∀ a ∈ rows, ∀ b ∈ rows, s.Tie a b → a = b) (hrows : rows.Nodup)
    (n : Nat) : ¬ Straddles s rows n := by
  cases n with
  | zero => exact not_straddles_zero rows
  | succ n =>
    intro hn
    have h := sorts_mergeSort s rows
    obtain ⟨p, q, hp, hq, hqp⟩ := h.border_tie hn
    have hpq := hties p (h.perm.mem_iff.1 (List.mem_of_getElem? hp)) q
      (h.perm.mem_iff.1 (List.mem_of_getElem? hq)) ⟨h.le_of_le (Nat.le_succ n) hp hq, hqp⟩
    subst hpq
    have hnodup := h.perm.nodup_iff.2 hrows
    obtain ⟨hi, -⟩ := List.getElem?_eq_some_iff.1 hp
    have hsame := (List.getElem?_inj hi hnodup).1 (hp.trans hq.symm)
    exact absurd hsame (Nat.ne_of_lt (Nat.lt_succ_self n))

/-- Two queries that put different rows first at a border give one of them twice. -/
theorem exists_twice (h : Sorts s rows order) (hn : Straddles s rows (n + 1)) :
    ∃ order' p, Sorts s rows order' ∧ order[n]? = some p ∧ order'[n + 1]? = some p := by
  obtain ⟨p, q, hp, hq, hqp⟩ := h.border_tie hn
  obtain ⟨hi, rfl⟩ := List.getElem?_eq_some_iff.1 hp
  obtain ⟨hj, rfl⟩ := List.getElem?_eq_some_iff.1 hq
  have hsplit : order = order.take n ++ order[n] :: order[n + 1] :: order.drop (n + 2) := by
    rw [← List.drop_eq_getElem_cons hj, ← List.drop_eq_getElem_cons hi, List.take_append_drop]
  refine ⟨_, order[n], h.swap hsplit hqp, hp, ?_⟩
  have hlen : (order.take n).length = n := List.length_take_of_le (Nat.le_of_lt hi)
  rw [List.getElem?_append_right (by omega), hlen, Nat.add_sub_cancel_left]
  rfl

/-- **Exact pages.** -/
theorem pages_exact {limit : Nat} (hlimit : 0 < limit) (hrows : rows.Nodup) :
    (∀ orders : Nat → List α, (∀ k, Sorts s rows (orders k)) →
        (pages limit rows.length orders).Perm rows) ↔
      ∀ k, ¬ Straddles s rows (k * limit) := by
  have hsort := sorts_mergeSort s rows
  have hpages : rows.length ≤ (rows.length + limit - 1) / limit * limit := by
    have hdiv := Nat.div_add_mod (rows.length + limit - 1) limit
    have hmod := Nat.mod_lt (rows.length + limit - 1) hlimit
    rw [Nat.mul_comm] at hdiv
    omega
  constructor
  · intro h k hk
    cases k with
    | zero =>
      rw [Nat.zero_mul] at hk
      exact not_straddles_zero rows hk
    | succ j =>
      obtain ⟨n, hn⟩ : ∃ n, (j + 1) * limit = n + 1 :=
        ⟨_, (Nat.succ_pred_eq_of_pos (Nat.mul_pos (Nat.succ_pos j) hlimit)).symm⟩
      rw [hn] at hk
      obtain ⟨order', p, hsort', hp, hp'⟩ := exists_twice hsort hk
      let orders := fun k => if k ≤ j then rows.mergeSort s.le else order'
      have hperm := h orders fun k => by
        dsimp only [orders]
        split
        · exact hsort
        · exact hsort'
      -- the last row of page `j` is the first of page `j + 1`
      have hpage : p ∈ page (orders j) limit (j * limit) := by
        refine List.mem_of_getElem? (i := limit - 1) ?_
        dsimp only [orders]
        rw [if_pos (Nat.le_refl j), page, List.getElem?_take, if_pos (by omega), List.getElem?_drop,
          show j * limit + (limit - 1) = n by rw [Nat.succ_mul] at hn; omega]
        exact hp
      have hpage' : p ∈ page (orders (j + 1)) limit ((j + 1) * limit) := by
        refine List.mem_of_getElem? (i := 0) ?_
        dsimp only [orders]
        rw [if_neg (by omega), page, List.getElem?_take, if_pos hlimit, List.getElem?_drop,
          Nat.add_zero, hn]
        exact hp'
      have hnodup := (List.nodup_flatMap.1 (hperm.nodup_iff.2 hrows)).2
      have hlen : n + 1 < rows.length := by
        rw [← hsort'.perm.length_eq]
        exact (List.getElem?_eq_some_iff.1 hp').1
      have hj : j + 1 < (rows.length + limit - 1) / limit := by
        refine Nat.lt_of_mul_lt_mul_right (a := limit) ?_
        omega
      have hdisjoint := List.pairwise_iff_getElem.1 hnodup j (j + 1)
        (by rw [List.length_range]; omega) (by rw [List.length_range]; exact hj)
        (Nat.lt_succ_self j)
      rw [List.getElem_range, List.getElem_range] at hdisjoint
      exact hdisjoint hpage hpage'
  · intro hn orders horders
    refine (pages_perm hsort horders hn _).trans ?_
    rw [List.take_of_length_le (by rw [hsort.perm.length_eq]; exact hpages)]
    exact hsort.perm

end Paging
