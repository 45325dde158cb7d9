import Mathlib.Data.Rat.Defs
import HashBox.Lib.Dict
import HashBox.Vault.Types

/-!
# The rate limiter (`internal/middleware/rate_limit.go`)

Each call holds the mutex from start to end, so a history is a list of calls, each with the time it
reads from the clock. A `time.Duration` counts nanoseconds. The `float64` variables of the source
are exact rationals here.
-/

namespace HashBox.Api

export HashBox.Vault (Time)

structure TokenBucket where
  tokens : ℚ
  lastSeen : Time
deriving DecidableEq

structure RateLimiter where
  limit : ℚ
  burst : ℚ
  window : Int
  buckets : Dict String TokenBucket

/-- `Duration.Seconds`. -/
def seconds (d : Int) : ℚ := d / 1000000000

/-- `NewRateLimiter`, without the janitor: what it calls is part of the history. -/
def newRateLimiter (limit window burst : Int) : RateLimiter :=
  let burst := if burst ≤ 0 ∨ burst > limit then limit else burst
  { limit, burst, window, buckets := ∅ }

namespace RateLimiter

def evictStale (l : RateLimiter) (now : Time) : RateLimiter :=
  let cutoff : Int := now + -l.window * 2
  { l with buckets := l.buckets.eraseWhere fun _ b => (b.lastSeen : Int) < cutoff }

/-- `Allow`: the decision, and the limiter after it. -/
def allow (l : RateLimiter) (clientID : String) (now : Time) : Bool × RateLimiter :=
  match l.buckets.lookup clientID with
  | none =>
    (true, { l with
      buckets := l.buckets.insert clientID { tokens := l.burst - 1, lastSeen := now } })
  | some b =>
    let elapsed := seconds (now - b.lastSeen)
    let refill := elapsed * (l.limit / seconds l.window)
    let tokens := b.tokens + refill
    let tokens := if tokens > l.burst then l.burst else tokens
    if tokens < 1 then
      (false, { l with buckets := l.buckets.insert clientID { tokens, lastSeen := now } })
    else
      (true, { l with
        buckets := l.buckets.insert clientID { tokens := tokens - 1, lastSeen := now } })

end RateLimiter

/-- A call on the limiter. -/
inductive LimiterCall
  | allow (clientID : String) (now : Time)
  | evictStale (now : Time)
deriving DecidableEq, Repr

def LimiterCall.now : LimiterCall → Time
  | .allow _ now => now
  | .evictStale now => now

def LimiterCall.isAllow : LimiterCall → Bool
  | .allow _ _ => true
  | .evictStale _ => false

/-- What `Allow` decided for a client at a time. -/
structure Decision where
  clientID : String
  now : Time
  allowed : Bool
deriving DecidableEq, Repr

/-- The decisions of a history of calls. -/
def RateLimiter.decisions : RateLimiter → List LimiterCall → List Decision
  | _, [] => []
  | l, .allow clientID now :: calls =>
    let (allowed, l) := l.allow clientID now
    ⟨clientID, now, allowed⟩ :: l.decisions calls
  | l, .evictStale now :: calls => (l.evictStale now).decisions calls

/-- The calls admitted for a client from the time `s` to the time `u`. -/
def admitted (clientID : String) (s u : ℚ) (ds : List Decision) : Nat :=
  ds.countP fun d => d.clientID == clientID && d.allowed && (s ≤ d.now && d.now ≤ u)

end HashBox.Api
