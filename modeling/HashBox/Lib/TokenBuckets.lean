import Mathlib.Algebra.Order.Ring.Defs
import Mathlib.Tactic.Linarith
import Mathlib.Tactic.Ring

/-!
# Token buckets

A bucket is refilled at `rate` tokens a unit of time, up to `burst`, and a call takes one token or
is refused. `level` is what a bucket holds at a time, and all that a call reads: buckets of one
level decide alike (`take_congr`) and stay of one level (`level_congr`). A call that is admitted is
paid for by the level before it, so in an interval of length `d` at most `burst + d * rate` calls
are (`admitted_le`).

A `Pool` has a bucket for each client. `decideAll_filter`: one client's decisions are those of its
bucket alone.
-/

namespace TokenBuckets

/-- The tokens a bucket held when it was last seen. -/
structure Bucket (K : Type _) where
  tokens : K
  lastSeen : K

variable {K : Type _} [CommRing K] [LinearOrder K]

section
variable (rate burst : K)

/-- What a bucket of `tokens` holds after `elapsed`. -/
def refill (tokens elapsed : K) : K := min (tokens + elapsed * rate) burst

def level (b : Bucket K) (now : K) : K := refill rate burst b.tokens (now - b.lastSeen)

/-- A call: whether it is admitted, and the bucket it leaves. -/
def take (b : Bucket K) (now : K) : Bool × Bucket K :=
  if level rate burst b now < 1 then (false, ⟨level rate burst b now, now⟩)
  else (true, ⟨level rate burst b now - 1, now⟩)

/-- The decisions on calls at the given times. -/
def run : Bucket K → List K → List (K × Bool)
  | _, [] => []
  | b, now :: times => (now, (take rate burst b now).1) :: run (take rate burst b now).2 times

end

variable {rate burst : K}

theorem take_lastSeen (b : Bucket K) (now : K) : (take rate burst b now).2.lastSeen = now := by
  unfold take
  split <;> rfl

/-- What the call takes from the level. -/
theorem take_tokens (b : Bucket K) (now : K) :
    (take rate burst b now).2.tokens =
      level rate burst b now - if (take rate burst b now).1 then 1 else 0 := by
  unfold take
  split <;> simp

theorem take_congr {b b' : Bucket K} {now : K}
    (h : level rate burst b now = level rate burst b' now) :
    take rate burst b now = take rate burst b' now := by
  unfold take
  rw [h]

theorem level_le (b : Bucket K) (now : K) : level rate burst b now ≤ burst := min_le_right _ _

theorem run_fst (b : Bucket K) (times : List K) :
    (run rate burst b times).map Prod.fst = times := by
  induction times generalizing b with
  | nil => rfl
  | cons t times ih => rw [run, List.map_cons, ih]

variable [IsStrictOrderedRing K]

/-- The level at a later time is the level now, refilled. -/
theorem level_later (hr : 0 ≤ rate) (b : Bucket K) {now t : K} (h : now ≤ t) :
    level rate burst b t = refill rate burst (level rate burst b now) (t - now) := by
  have hg : 0 ≤ (t - now) * rate := mul_nonneg (sub_nonneg.2 h) hr
  have hsum : b.tokens + (t - b.lastSeen) * rate =
      b.tokens + (now - b.lastSeen) * rate + (t - now) * rate := by ring
  unfold level refill
  rw [hsum, min_add, min_assoc, min_eq_right (le_add_of_nonneg_right hg)]

/-- **Buckets of one level now are of one level later.** -/
theorem level_congr (hr : 0 ≤ rate) {b b' : Bucket K} {now t : K} (ht : now ≤ t)
    (h : level rate burst b now = level rate burst b' now) :
    level rate burst b t = level rate burst b' t := by
  rw [level_later hr b ht, h, ← level_later hr b' ht]

theorem level_nonneg (hr : 0 ≤ rate) (hb : 0 ≤ burst) {b : Bucket K} {now : K}
    (h0 : 0 ≤ b.tokens) (ht : b.lastSeen ≤ now) : 0 ≤ level rate burst b now :=
  le_min (add_nonneg h0 (mul_nonneg (sub_nonneg.2 ht) hr)) hb

theorem take_nonneg (hr : 0 ≤ rate) (hb : 0 ≤ burst) {b : Bucket K} {now : K}
    (h0 : 0 ≤ b.tokens) (ht : b.lastSeen ≤ now) : 0 ≤ (take rate burst b now).2.tokens := by
  unfold take
  split
  · exact level_nonneg hr hb h0 ht
  · next h => exact sub_nonneg.2 (not_lt.1 h)

theorem level_take (b : Bucket K) (now : K) :
    level rate burst (take rate burst b now).2 now = (take rate burst b now).2.tokens := by
  have hle : (take rate burst b now).2.tokens ≤ burst := by
    rw [take_tokens]
    refine le_trans (sub_le_self _ ?_) (level_le b now)
    split
    · exact zero_le_one
    · exact le_rfl
  rw [level, refill, take_lastSeen, sub_self, zero_mul, add_zero, min_eq_left hle]

/-! ## The bound -/

/-- The calls admitted by the time `u`. -/
def admittedBy (u : K) (ds : List (K × Bool)) : Nat := ds.countP fun d => d.2 && d.1 ≤ u

/-- The calls admitted from the time `s` to the time `u`. -/
def admittedIn (s u : K) (ds : List (K × Bool)) : Nat :=
  ds.countP fun d => d.2 && (s ≤ d.1 && d.1 ≤ u)

omit [CommRing K] [IsStrictOrderedRing K] in
theorem admittedIn_le (s u : K) (ds : List (K × Bool)) : admittedIn s u ds ≤ admittedBy u ds := by
  refine List.countP_mono_left fun d _ hd => ?_
  simp only [Bool.and_eq_true] at hd ⊢
  exact ⟨hd.1, hd.2.2⟩

omit [IsStrictOrderedRing K] in
theorem admittedBy_late {u : K} (b : Bucket K) {times : List K} (h : ∀ t ∈ times, u < t) :
    admittedBy u (run rate burst b times) = 0 := by
  refine List.countP_eq_zero.2 fun d hd => ?_
  have hlate : u < d.1 := h d.1 (run_fst b times ▸ List.mem_map_of_mem hd)
  simp [not_le.2 hlate]

/-- **The level pays for the calls.** -/
theorem admittedBy_le (hr : 0 ≤ rate) (hb : 0 ≤ burst) {u : K} (times : List K) :
    ∀ (b : Bucket K) (now : K), 0 ≤ b.tokens → b.lastSeen ≤ now → now ≤ u →
      times.Pairwise (· ≤ ·) → (∀ t ∈ times, now ≤ t) →
      (admittedBy u (run rate burst b times) : K) ≤ level rate burst b now + (u - now) * rate := by
  induction times with
  | nil =>
    intro b now h0 hs hu _ _
    rw [run, admittedBy, List.countP_nil, Nat.cast_zero]
    exact add_nonneg (level_nonneg hr hb h0 hs) (mul_nonneg (sub_nonneg.2 hu) hr)
  | cons t times ih =>
    intro b now h0 hs hu hsorted hall
    obtain ⟨hlater, hsorted⟩ := List.pairwise_cons.1 hsorted
    have hnow : now ≤ t := hall t List.mem_cons_self
    by_cases htu : t ≤ u
    · have hrest := ih (take rate burst b t).2 t (take_nonneg hr hb h0 (hs.trans hnow))
        (take_lastSeen b t).le htu hsorted hlater
      rw [level_take, take_tokens] at hrest
      have hlevel : level rate burst b t ≤ level rate burst b now + (t - now) * rate :=
        (level_later hr b hnow).trans_le (min_le_left _ _)
      have hcount : (admittedBy u (run rate burst b (t :: times)) : K) =
          admittedBy u (run rate burst (take rate burst b t).2 times) +
            if (take rate burst b t).1 then 1 else 0 := by
        rw [run, admittedBy, List.countP_cons]
        simp only [htu, decide_true, Bool.and_true]
        push_cast
        rfl
      have hadd : (u - now) * rate = (t - now) * rate + (u - t) * rate := by ring
      rw [hcount, hadd]
      linarith
    · -- the calls from here on come too late
      have hlate : ∀ t' ∈ t :: times, u < t' := List.forall_mem_cons.2
        ⟨not_le.1 htu, fun t' ht' => (not_le.1 htu).trans_le (hlater t' ht')⟩
      rw [admittedBy_late b hlate, Nat.cast_zero]
      exact add_nonneg (level_nonneg hr hb h0 hs) (mul_nonneg (sub_nonneg.2 hu) hr)

/-- **The bound.** In any interval of length `u - s` at most `burst + (u - s) * rate` calls are
admitted. -/
theorem admitted_le (hr : 0 ≤ rate) (hb : 0 ≤ burst) {s u : K} (hsu : s ≤ u) (times : List K) :
    ∀ b : Bucket K, 0 ≤ b.tokens → (∀ t ∈ times, b.lastSeen ≤ t) → times.Pairwise (· ≤ ·) →
      (admittedIn s u (run rate burst b times) : K) ≤ burst + (u - s) * rate := by
  have hpos : 0 ≤ burst + (u - s) * rate := add_nonneg hb (mul_nonneg (sub_nonneg.2 hsu) hr)
  induction times with
  | nil =>
    intro b _ _ _
    rw [run, admittedIn, List.countP_nil, Nat.cast_zero]
    exact hpos
  | cons t times ih =>
    intro b h0 hall hsorted
    have hlast := hall t List.mem_cons_self
    have hlater := (List.pairwise_cons.1 hsorted).1
    by_cases hst : s ≤ t
    · -- the interval has begun: the level at `t` is at most `burst`
      have hin : (admittedIn s u (run rate burst b (t :: times)) : K) ≤
          admittedBy u (run rate burst b (t :: times)) := Nat.cast_le.2 (admittedIn_le ..)
      refine hin.trans ?_
      by_cases htu : t ≤ u
      · have hge : ∀ t' ∈ t :: times, t ≤ t' := List.forall_mem_cons.2 ⟨le_rfl, hlater⟩
        have hmul : (u - t) * rate ≤ (u - s) * rate :=
          mul_le_mul_of_nonneg_right (sub_le_sub_left hst u) hr
        exact (admittedBy_le hr hb (t :: times) b t h0 hlast htu hsorted hge).trans
          (add_le_add (level_le b t) hmul)
      · have hlate : ∀ t' ∈ t :: times, u < t' := List.forall_mem_cons.2
          ⟨not_le.1 htu, fun t' ht' => (not_le.1 htu).trans_le (hlater t' ht')⟩
        rw [admittedBy_late b hlate, Nat.cast_zero]
        exact hpos
    · have hrest := ih (take rate burst b t).2 (take_nonneg hr hb h0 hlast)
        (fun t' ht' => by rw [take_lastSeen]; exact hlater t' ht')
        (List.pairwise_cons.1 hsorted).2
      rw [run, admittedIn, List.countP_cons]
      simpa [hst, admittedIn] using hrest

/-! ## A bucket for each client -/

variable {ι : Type _} [DecidableEq ι]

/-- The decisions on calls of clients at the given times. -/
def decideAll (rate burst : K) : (ι → Bucket K) → List (ι × K) → List (ι × K × Bool)
  | _, [] => []
  | p, (c, now) :: calls =>
    (c, now, (take rate burst (p c) now).1) ::
      decideAll rate burst (Function.update p c (take rate burst (p c) now).2) calls

omit [IsStrictOrderedRing K] in
/-- **One client's decisions are those of its bucket alone.** -/
theorem decideAll_filter (c : ι) (calls : List (ι × K)) : ∀ p : ι → Bucket K,
    ((decideAll rate burst p calls).filter (·.1 = c)).map Prod.snd =
      run rate burst (p c) ((calls.filter (·.1 = c)).map Prod.snd) := by
  induction calls with
  | nil => exact fun _ => rfl
  | cons call calls ih =>
    intro p
    obtain ⟨c', now⟩ := call
    rw [decideAll]
    by_cases hc : c' = c
    · subst hc
      simp only [decide_true, List.filter_cons_of_pos, List.map_cons, run, ih,
        Function.update_self]
    · simp only [hc, decide_false, Bool.false_eq_true, not_false_eq_true,
        List.filter_cons_of_neg, ih, Function.update_of_ne (Ne.symm hc)]

end TokenBuckets
