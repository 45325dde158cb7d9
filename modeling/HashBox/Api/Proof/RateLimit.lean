import Mathlib.Tactic.FieldSimp
import HashBox.Api.RateLimit
import HashBox.Lib.TokenBuckets

/-!
# The rate limiter as a pool of token buckets

The limiter keeps a bucket for the clients it has seen lately only. To the others it acts as one
does whose bucket is full, and a bucket that `evictStale` may take has filled up by then
(`level_evictStale`). So a history decides like a pool that has a bucket for every client and evicts
none (`decisions_eq`), and `rate_limit` reads the bound and the harmlessness of evictions off it.
-/

namespace HashBox.Api

open TokenBuckets

def RateLimiter.rate (l : RateLimiter) : ℚ := l.limit / l.window

namespace RateLimiter

/-- The bucket that the limiter acts as if it had for a client: a full one, if it has none. -/
def bucket (l : RateLimiter) (clientID : String) : Bucket ℚ :=
  match l.buckets.lookup clientID with
  | none => ⟨l.burst, 0⟩
  | some b => ⟨b.tokens, b.lastSeen⟩

structure Inv (l : RateLimiter) (now : Time) : Prop where
  window : 0 < l.window
  burst : 1 ≤ l.burst
  limit : l.burst ≤ l.limit
  tokens : ∀ c b, l.buckets.lookup c = some b → 0 ≤ b.tokens
  lastSeen : ∀ c b, l.buckets.lookup c = some b → b.lastSeen ≤ now

variable {l : RateLimiter} {now : Time}

theorem Inv.rate_nonneg (h : l.Inv now) : 0 ≤ l.rate :=
  div_nonneg ((zero_le_one.trans h.burst).trans h.limit) (Int.cast_nonneg h.window.le)

theorem Inv.later (h : l.Inv now) {t : Time} (ht : now ≤ t) : l.Inv t :=
  { h with lastSeen := fun c b hb => (h.lastSeen c b hb).trans ht }

theorem Inv.bucket_tokens (h : l.Inv now) (c : String) : 0 ≤ (l.bucket c).tokens := by
  unfold bucket
  split
  · exact zero_le_one.trans h.burst
  · next b hb => exact h.tokens c b hb

theorem Inv.bucket_lastSeen (h : l.Inv now) (c : String) : (l.bucket c).lastSeen ≤ now := by
  unfold bucket
  split
  · exact Nat.cast_nonneg now
  · next b hb => exact Nat.cast_le.2 (h.lastSeen c b hb)

theorem Inv.level_full (h : l.Inv now) (t : Time) :
    level l.rate l.burst ⟨l.burst, 0⟩ t = l.burst := by
  rw [level, refill, sub_zero]
  exact min_eq_right (le_add_of_nonneg_right (mul_nonneg (Nat.cast_nonneg t) h.rate_nonneg))

/-! ## The operations -/

/-- The source's refill, in nanoseconds. -/
theorem refill_eq (l : RateLimiter) (d : Int) :
    seconds d * (l.limit / seconds l.window) = d * l.rate := by
  unfold seconds rate
  rw [div_div_eq_mul_div, div_mul_div_comm]
  field_simp

def put (l : RateLimiter) (c : String) (tokens : ℚ) (now : Time) : RateLimiter :=
  { l with buckets := l.buckets.insert c { tokens, lastSeen := now } }

/-- **`Allow` takes from the client's bucket**, which it makes if the limiter has none. -/
theorem allow_eq (h : l.Inv now) (c : String) :
    l.allow c now = ((take l.rate l.burst (l.bucket c) now).1,
      l.put c (take l.rate l.burst (l.bucket c) now).2.tokens now) := by
  unfold allow bucket
  cases hb : l.buckets.lookup c with
  | none =>
    simp only [take, h.level_full now, not_lt.2 h.burst, if_false]
    rfl
  | some b =>
    have hlevel : (if b.tokens + seconds (now - b.lastSeen) * (l.limit / seconds l.window) > l.burst
        then l.burst else b.tokens + seconds (now - b.lastSeen) * (l.limit / seconds l.window)) =
        level l.rate l.burst ⟨b.tokens, b.lastSeen⟩ now := by
      rw [refill_eq, level, refill, Int.cast_sub, Int.cast_natCast, Int.cast_natCast]
      split
      · next hgt => exact (min_eq_right hgt.le).symm
      · next hle => exact (min_eq_left (not_lt.1 hle)).symm
    simp only [hlevel, take]
    split <;> rfl

theorem Inv.allow (h : l.Inv now) (c : String) : (l.allow c now).2.Inv now := by
  have htokens : 0 ≤ (take l.rate l.burst (l.bucket c) now).2.tokens :=
    take_nonneg h.rate_nonneg (zero_le_one.trans h.burst) (h.bucket_tokens c) (h.bucket_lastSeen c)
  rw [allow_eq h]
  refine ⟨h.window, h.burst, h.limit, fun c' b hb => ?_, fun c' b hb => ?_⟩ <;>
    rcases Dict.lookup_insert_cases hb with ⟨-, rfl⟩ | ⟨-, hb⟩
  · exact htokens
  · exact h.tokens c' b hb
  · exact Nat.le_refl now
  · exact h.lastSeen c' b hb

theorem bucket_allow (h : l.Inv now) (c : String) :
    (l.allow c now).2.bucket =
      Function.update l.bucket c (take l.rate l.burst (l.bucket c) now).2 := by
  funext c'
  rw [allow_eq h]
  by_cases hc : c' = c
  · subst hc
    have hlast := @take_lastSeen _ _ _ l.rate l.burst (l.bucket c') now
    simp only [Function.update_self, bucket, put, AList.lookup_insert]
    exact congrArg (Bucket.mk _) hlast.symm
  · simp only [Function.update_of_ne hc, bucket, put, AList.lookup_insert_ne hc]

theorem lookup_evictStale (l : RateLimiter) (now : Time) (c : String) :
    (l.evictStale now).buckets.lookup c =
      (l.buckets.lookup c).filter fun b => !decide ((b.lastSeen : Int) < now + -l.window * 2) :=
  Dict.lookup_eraseWhere _ _ c

theorem Inv.evictStale (h : l.Inv now) (t : Time) : (l.evictStale t).Inv now := by
  refine ⟨h.window, h.burst, h.limit, fun c b hb => ?_, fun c b hb => ?_⟩ <;>
    rw [lookup_evictStale, Option.filter_eq_some_iff] at hb
  · exact h.tokens c b hb.1
  · exact h.lastSeen c b hb.1

/-- **An eviction changes no level.** A bucket unseen for two windows has been refilled twice. -/
theorem level_evictStale (h : l.Inv now) (c : String) :
    level l.rate l.burst ((l.evictStale now).bucket c) now =
      level l.rate l.burst (l.bucket c) now := by
  unfold bucket
  rw [lookup_evictStale]
  cases hb : l.buckets.lookup c with
  | none => rfl
  | some b =>
    by_cases hold : (b.lastSeen : Int) < now + -l.window * 2
    · have hw : (0 : ℚ) < l.window := Int.cast_pos.2 h.window
      have helapsed : (l.window : ℚ) * 2 ≤ now - b.lastSeen := by
        have hint : (l.window : Int) * 2 ≤ (now : Int) - b.lastSeen := by omega
        exact_mod_cast hint
      have hrefill : l.limit * 2 ≤ ((now : ℚ) - b.lastSeen) * l.rate := by
        have hmul := mul_le_mul_of_nonneg_right helapsed h.rate_nonneg
        have hrate : (l.window : ℚ) * l.rate = l.limit := mul_div_cancel₀ l.limit hw.ne'
        rw [mul_right_comm, hrate] at hmul
        exact hmul
      have hfull : level l.rate l.burst ⟨b.tokens, b.lastSeen⟩ now = l.burst := by
        refine min_eq_right ?_
        have h0 := h.tokens c b hb
        have h1 := h.burst
        have h2 := h.limit
        show l.burst ≤ b.tokens + ((now : ℚ) - b.lastSeen) * l.rate
        linarith
      simp only [Option.filter, hold, decide_true, Bool.not_true, Bool.false_eq_true, if_false]
      rw [hfull]
      exact h.level_full now
    · simp only [Option.filter, hold, decide_false, Bool.not_false, if_true]

/-! ## Histories -/

def allowCalls (calls : List LimiterCall) : List (String × ℚ) :=
  calls.filterMap fun
    | .allow clientID now => some (clientID, (now : ℚ))
    | .evictStale _ => none

def pooled (d : Decision) : String × ℚ × Bool := (d.clientID, d.now, d.allowed)

/-- **A history decides like a pool without evictions**, from any state whose levels are the
pool's. -/
theorem decisions_eq (calls : List LimiterCall) :
    ∀ (l : RateLimiter) (now : Time) (p : String → Bucket ℚ), l.Inv now →
      (∀ c, level l.rate l.burst (l.bucket c) now = level l.rate l.burst (p c) now) →
      calls.Pairwise (fun a b => a.now ≤ b.now) → (∀ a ∈ calls, now ≤ a.now) →
      (l.decisions calls).map pooled = decideAll l.rate l.burst p (allowCalls calls) := by
  induction calls with
  | nil => exact fun _ _ _ _ _ _ _ => rfl
  | cons call calls ih =>
    intro l now p hinv hlevel hsorted hnow
    obtain ⟨hlater, hrest⟩ := List.pairwise_cons.1 hsorted
    have ht : now ≤ call.now := hnow call List.mem_cons_self
    have hinv' := hinv.later ht
    have hlevel' : ∀ c, level l.rate l.burst (l.bucket c) call.now =
        level l.rate l.burst (p c) call.now := fun c =>
      level_congr hinv.rate_nonneg (Nat.cast_le.2 ht) (hlevel c)
    cases call with
    | evictStale t =>
      exact ih (l.evictStale t) t p (hinv'.evictStale t)
        (fun c => (level_evictStale hinv' c).trans (hlevel' c)) hrest hlater
    | allow clientID t =>
      rw [LimiterCall.now] at hinv' hlevel'
      have htake : take l.rate l.burst (l.bucket clientID) t = take l.rate l.burst (p clientID) t :=
        take_congr (hlevel' clientID)
      have hsame : (l.allow clientID t).2.rate = l.rate ∧
          (l.allow clientID t).2.burst = l.burst := by
        rw [allow_eq hinv']
        exact ⟨rfl, rfl⟩
      have hdecision : (l.allow clientID t).1 = (take l.rate l.burst (p clientID) t).1 := by
        rw [allow_eq hinv', htake]
      have hcalls := ih (l.allow clientID t).2 t
        (Function.update p clientID (take l.rate l.burst (p clientID) t).2) (hinv'.allow clientID)
        (fun c => by
          rw [bucket_allow hinv', htake, hsame.1, hsame.2]
          by_cases hc : c = clientID
          · rw [hc, Function.update_self, Function.update_self]
          · rw [Function.update_of_ne hc, Function.update_of_ne hc]
            exact hlevel' c)
        hrest hlater
      rw [hsame.1, hsame.2] at hcalls
      rw [decisions, List.map_cons, hcalls]
      simp only [pooled, hdecision]
      rfl

/-- The calls admitted for a client, counted among the pool's decisions on it. -/
theorem admitted_eq (clientID : String) (s u : ℚ) (ds : List Decision) :
    admitted clientID s u ds =
      admittedIn s u (((ds.map pooled).filter (·.1 = clientID)).map Prod.snd) := by
  rw [admittedIn, List.countP_map, List.countP_filter, List.countP_map]
  refine List.countP_congr fun d _ => ?_
  show _ ↔ ((d.allowed && (decide (s ≤ (d.now : ℚ)) && decide ((d.now : ℚ) ≤ u))) &&
    decide (d.clientID = clientID)) = true
  simp only [Bool.and_eq_true, beq_iff_eq, decide_eq_true_eq]
  tauto

theorem allowCalls_sorted {calls : List LimiterCall}
    (h : calls.Pairwise fun a b => a.now ≤ b.now) (c : String) :
    (((allowCalls calls).filter (·.1 = c)).map Prod.snd).Pairwise (· ≤ ·) := by
  refine List.pairwise_map.2 (List.Pairwise.sublist List.filter_sublist ?_)
  refine List.pairwise_filterMap.2 (h.imp fun {a b} hab x hx y hy => ?_)
  cases a <;> cases b <;> simp only [Option.some.injEq, reduceCtorEq] at hx hy
  rw [← hx, ← hy]
  exact Nat.cast_le.2 hab

theorem allowCalls_nonneg {calls : List LimiterCall} {c : String} {t : ℚ}
    (h : t ∈ ((allowCalls calls).filter (·.1 = c)).map Prod.snd) : 0 ≤ t := by
  obtain ⟨x, hx, rfl⟩ := List.mem_map.1 h
  obtain ⟨a, -, ha⟩ := List.mem_filterMap.1 (List.mem_of_mem_filter hx)
  cases a <;> simp only [Option.some.injEq, reduceCtorEq] at ha
  rw [← ha]
  exact Nat.cast_nonneg _

theorem pooled_injective : Function.Injective pooled := by
  rintro ⟨c, t, a⟩ ⟨c', t', a'⟩ h
  simp only [pooled, Prod.mk.injEq, Nat.cast_inj] at h
  obtain ⟨rfl, rfl, rfl⟩ := h
  rfl

theorem allowCalls_filter (calls : List LimiterCall) :
    allowCalls (calls.filter LimiterCall.isAllow) = allowCalls calls := by
  rw [allowCalls, allowCalls, List.filterMap_filter]
  refine List.filterMap_congr fun a _ => ?_
  cases a <;> rfl

theorem inv_newRateLimiter {limit window : Int} (hl : 0 < limit) (hw : 0 < window) (burst : Int) :
    (newRateLimiter limit window burst).Inv 0 := by
  refine ⟨hw, ?_, ?_, fun _ _ h => (by cases h), fun _ _ h => (by cases h)⟩
  · show (1 : ℚ) ≤ ((if burst ≤ 0 ∨ burst > limit then limit else burst : Int) : ℚ)
    rw [← Int.cast_one, Int.cast_le]
    split <;> omega
  · show ((if burst ≤ 0 ∨ burst > limit then limit else burst : Int) : ℚ) ≤ limit
    rw [Int.cast_le]
    split <;> omega

/-- **The bound, and evictions are not seen.** -/
theorem rate_limit (limit window burst : Int) (hl : 0 < limit) (hw : 0 < window)
    (calls : List LimiterCall) (hsorted : calls.Pairwise fun a b => a.now ≤ b.now) :
    (∀ (clientID : String) (s u : ℚ), s ≤ u →
      (admitted clientID s u ((newRateLimiter limit window burst).decisions calls) : ℚ) ≤
        (newRateLimiter limit window burst).burst + (u - s) * (limit / window)) ∧
    (newRateLimiter limit window burst).decisions calls =
      (newRateLimiter limit window burst).decisions (calls.filter LimiterCall.isAllow) := by
  have hinv := inv_newRateLimiter hl hw burst
  generalize hn : newRateLimiter limit window burst = l at *
  have hrate : l.rate = limit / window := by rw [← hn]; rfl
  have hpool := decisions_eq calls l 0 l.bucket hinv (fun _ => rfl) hsorted fun _ _ => Nat.zero_le _
  refine ⟨fun clientID s u hsu => ?_, ?_⟩
  · rw [admitted_eq, hpool, decideAll_filter, ← hrate]
    have hburst : 0 ≤ l.burst := zero_le_one.trans hinv.burst
    have hlast : (l.bucket clientID).lastSeen ≤ 0 := by
      simpa using hinv.bucket_lastSeen clientID
    exact admitted_le hinv.rate_nonneg hburst hsu _ (l.bucket clientID)
      (hinv.bucket_tokens clientID) (fun t ht => hlast.trans (allowCalls_nonneg ht))
      (allowCalls_sorted hsorted clientID)
  · have hfilter := decisions_eq (calls.filter LimiterCall.isAllow) l 0 l.bucket hinv
      (fun _ => rfl) (hsorted.sublist List.filter_sublist) fun _ _ => Nat.zero_le _
    rw [allowCalls_filter, ← hpool] at hfilter
    exact (List.map_injective_iff.2 pooled_injective hfilter).symm

/-- Three calls, and a fourth after the client's bucket is gone. -/
def sampleCalls : List LimiterCall :=
  [.allow "a" 0, .allow "a" 1, .allow "a" 2, .evictStale 30, .allow "a" 31]

theorem rate_limit_sample :
    ((newRateLimiter 3 10 2).decisions sampleCalls).map Decision.allowed =
      [true, true, false, true] ∧
    (admitted "a" 0 2 ((newRateLimiter 3 10 2).decisions sampleCalls) : ℚ) ≤
      (newRateLimiter 3 10 2).burst + (2 - 0) * ((3 : Int) / (10 : Int)) ∧
    (newRateLimiter 3 10 2).decisions sampleCalls =
      (newRateLimiter 3 10 2).decisions (sampleCalls.filter LimiterCall.isAllow) := by
  have h := rate_limit 3 10 2 (by decide) (by decide) sampleCalls (by decide)
  exact ⟨by decide +kernel, h.1 "a" 0 2 (by norm_num), h.2⟩

end RateLimiter

end HashBox.Api
