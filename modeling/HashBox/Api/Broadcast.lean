import HashBox.Lib.Channels
import HashBox.Lib.Dict
import HashBox.Lib.Runs

/-!
# The live event broadcaster (`internal/service/security_monitor_service.go`)

The goroutines around a `securityEventBroadcaster`: any number of them call `Publish`, `Subscribe`,
`Close` and the functions that `Subscribe` returned, and receive from its channels. The mutex lets
one call in at a time, so `pc` is that call's place; a step is one channel operation of it, or a
receive, which no lock keeps out.

The channels are numbered in the order of the `Subscribe` calls, the published events in the order
of publication. These numbers, the list of the events and the logs of the subscribers are kept for
the account of what was delivered; the source has none of them.
-/

namespace HashBox.Api

open Channels

/-- A published event with its number. -/
structure Publication (ε : Type _) where
  serial : Nat
  event : ε
deriving DecidableEq, Repr

/-- A channel that `Subscribe` returned, and its party. -/
structure Subscription (ε : Type _) where
  channel : Channel (Publication ε)
  /-- The `id` that the unsubscribe function has; it does nothing without one. -/
  id : Option UInt64
  /-- Its `once` has run. -/
  once : Bool
  received : List (Publication ε)
  /-- How many events had been published when it began. -/
  since : Nat
  /-- How many had been when its channel was closed. -/
  ended : Option Nat

/-- The operations of `Publish` on one channel. -/
inductive PublishOp
  | send
  | drop
  | resend
deriving DecidableEq, Repr

/-- The call that holds the mutex; `todo` is the rest of its iteration over the subscribers. -/
inductive BroadcastPc (ε : Type _)
  | idle
  | publish (p : Publication ε) (todo : List (UInt64 × Nat)) (op : PublishOp)
  | close (todo : List (UInt64 × Nat))
  | panicked (panic : Panic)

/-- `securityEventBroadcaster`; a channel is given by its number. -/
structure Broadcaster where
  nextID : UInt64
  subscribers : Dict UInt64 Nat
  closed : Bool

structure BroadcastSystem (ε : Type _) extends Broadcaster where
  pc : BroadcastPc ε
  subscriptions : List (Subscription ε)
  published : List (Publication ε)

/-- An iteration over the map of subscribers comes to them in some `order`. -/
inductive BroadcastAction (ε : Type _)
  | subscribe
  | unsubscribe (i : Nat)
  | publish (event : ε) (order : List (UInt64 × Nat))
  | close (order : List (UInt64 × Nat))
  /-- the next operation of the call that holds the mutex -/
  | next
  | receive (i : Nat)

/-- `make(chan …, 64)`. -/
def subscriberBuffer : Nat := 64

namespace BroadcastSystem

variable {ε : Type _}

/-- `newSecurityEventBroadcaster`. -/
def start : BroadcastSystem ε where
  nextID := 0
  subscribers := ∅
  closed := false
  pc := .idle
  subscriptions := []
  published := []

/-- The channel `i` as an operation on it leaves it. -/
def setChannel (s : BroadcastSystem ε) (i : Nat) (c : Channel (Publication ε)) :
    BroadcastSystem ε :=
  { s with subscriptions := s.subscriptions.modify i fun x => { x with channel := c } }

/-- `close(channel)` and `delete(b.subscribers, id)`. -/
def closeChannel (s : BroadcastSystem ε) (id : UInt64) (i : Nat) : BroadcastSystem ε :=
  match s.subscriptions[i]? with
  | none => s
  | some x =>
    match x.channel.close with
    | .error e => { s with pc := .panicked e }
    | .ok c => { s with
        subscribers := s.subscribers.erase id
        subscriptions := s.subscriptions.modify i fun x =>
          { x with channel := c, ended := some s.published.length } }

def subscribe (s : BroadcastSystem ε) : BroadcastSystem ε :=
  let channel := Channel.make subscriberBuffer
  let n := s.published.length
  if s.closed then
    let x : Subscription ε :=
      { channel := { channel with closed := true }, id := none, once := false, received := []
        since := n, ended := some n }
    { s with subscriptions := s.subscriptions ++ [x] }
  else
    let id := s.nextID + 1
    let x : Subscription ε :=
      { channel, id := some id, once := false, received := [], since := n, ended := none }
    { s with
      nextID := id
      subscribers := s.subscribers.insert id s.subscriptions.length
      subscriptions := s.subscriptions ++ [x] }

/-- The function that `Subscribe` returned with channel `i`. -/
def unsubscribe (s : BroadcastSystem ε) (i : Nat) : BroadcastSystem ε :=
  match s.subscriptions[i]? with
  | none => s
  | some x =>
    match x.id with
    | none => s
    | some id =>
      if x.once then s
      else
        let s := { s with
          subscriptions := s.subscriptions.modify i fun x => { x with once := true } }
        match s.subscribers.lookup id with
        | none => s
        | some current => s.closeChannel id current

/-- The next operation of `Publish`. -/
def publishNext (s : BroadcastSystem ε) (p : Publication ε) :
    List (UInt64 × Nat) → PublishOp → BroadcastSystem ε
  | [], _ => { s with pc := .idle }
  | (id, i) :: todo, op =>
    match s.subscriptions[i]? with
    | none => s
    | some x =>
      match op with
      | .send =>
        match x.channel.trySend p with
        | .error e => { s with pc := .panicked e }
        | .ok (true, c) => { s.setChannel i c with pc := .publish p todo .send }
        | .ok (false, _) => { s with pc := .publish p ((id, i) :: todo) .drop }
      | .drop =>
        { s.setChannel i x.channel.tryRecv.2 with pc := .publish p ((id, i) :: todo) .resend }
      | .resend =>
        match x.channel.trySend p with
        | .error e => { s with pc := .panicked e }
        | .ok (_, c) => { s.setChannel i c with pc := .publish p todo .send }

/-- One step of the system. -/
def step (s : BroadcastSystem ε) : BroadcastAction ε → Option (BroadcastSystem ε)
  | .receive i =>
    match s.subscriptions[i]? with
    | none => none
    | some x =>
      match x.channel.tryRecv with
      | (some p, c) => some { s with
          subscriptions := s.subscriptions.modify i fun x =>
            { x with channel := c, received := x.received ++ [p] } }
      -- a closed channel gives the zero value, an open one lets the receiver wait
      | (none, _) => if x.channel.closed then some s else none
  | .next =>
    match s.pc with
    | .publish p todo op => some (s.publishNext p todo op)
    | .close [] => some { s with pc := .idle }
    | .close ((id, i) :: todo) => some ({ s with pc := .close todo }.closeChannel id i)
    | _ => none
  | action =>
    -- the other actions take the mutex
    match s.pc, action with
    | .idle, .subscribe => some s.subscribe
    | .idle, .unsubscribe i => some (s.unsubscribe i)
    | .idle, .publish event order =>
      if s.closed then some s
      else if order.isPerm s.subscribers.toList then
        let p : Publication ε := ⟨s.published.length, event⟩
        some { s with pc := .publish p order .send, published := s.published ++ [p] }
      else none
    | .idle, .close order =>
      if s.closed then some s
      else if order.isPerm s.subscribers.toList then
        some { s with closed := true, pc := .close order }
      else none
    | _, _ => none

/-- The states of a run. -/
abbrev Run : BroadcastSystem ε → Prop := Runs.Reach step (fun _ _ => True) (· = start)

end BroadcastSystem

end HashBox.Api
