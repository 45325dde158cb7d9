import HashBox.Api.Broadcast

/-!
# What the live event broadcaster delivers

In every run no channel is sent on or closed after it was closed, a subscriber receives a
subsequence of what was published while it was subscribed, and `Publish` leaves its event with every
current subscriber: what it drops makes the room (`Delivers`). An event is lost to a subscriber only
with 64 later ones published (`LosesOld`) if between a `send` that finds a buffer full and the
`drop` after it the buffer is left alone or drained, and if no `Subscribe` draws an id in use.
-/

namespace HashBox.Api

open Channels

variable {ε : Type _}

/-- The events published from the beginning of the subscription to its end, or so far. -/
def Subscription.window (x : Subscription ε) (published : List (Publication ε)) :
    List (Publication ε) :=
  (published.take (x.ended.getD published.length)).drop x.since

def BroadcastPc.todo : BroadcastPc ε → List (UInt64 × Nat)
  | .publish _ todo _ => todo
  | .close todo => todo
  | _ => []

/-- The event that `Publish` has not enqueued in channel `i` yet. -/
def BroadcastPc.due (i : Nat) : BroadcastPc ε → List (Publication ε)
  | .publish p todo _ => if i ∈ todo.map Prod.snd then [p] else []
  | _ => []

theorem BroadcastPc.due_head (p : Publication ε) (id : UInt64) (i : Nat)
    (todo : List (UInt64 × Nat)) (op : PublishOp) :
    (BroadcastPc.publish p ((id, i) :: todo) op).due i = [p] :=
  if_pos List.mem_cons_self

namespace BroadcastSystem

def current (s : BroadcastSystem ε) (i : Nat) : Prop := ∃ id, s.subscribers.lookup id = some i

structure Delivers (s : BroadcastSystem ε) : Prop where
  noPanic : ∀ panic, s.pc ≠ .panicked panic
  numbered : s.published.map Publication.serial = List.range s.published.length
  ordered : ∀ x ∈ s.subscriptions, x.received.Sublist (x.window s.published)
  enqueued : ∀ i x p, s.subscriptions[i]? = some x → s.current i → s.pc.due i = [] →
    s.published.getLast? = some p → x.since ≤ p.serial → p ∈ x.received ++ x.channel.buf

/-- An event of a subscription is received, in its buffer or about to be enqueued there, unless 64
later events were published. -/
def LosesOld (s : BroadcastSystem ε) : Prop :=
  ∀ i x, s.subscriptions[i]? = some x → ∀ p ∈ x.window s.published,
    p ∈ x.received ∨ p ∈ x.channel.buf ∨ p ∈ s.pc.due i ∨
      p.serial + 64 < x.ended.getD s.published.length

/-- The channel that the next operation drops from. -/
def drops (s : BroadcastSystem ε) : Option (Subscription ε) :=
  match s.pc with
  | .publish _ ((_, i) :: _) .drop => s.subscriptions[i]?
  | _ => none

/-- A `drop` finds the buffer as full as the `send` before it did, or nothing to drop, and
`Subscribe` draws an id that is not in use. -/
def Undisturbed (s : BroadcastSystem ε) : BroadcastAction ε → Prop
  | .next => ∀ x ∈ s.drops, x.channel.full ∨ x.channel.buf = []
  | .subscribe => s.closed = true ∨ s.subscribers.lookup (s.nextID + 1) = none
  | _ => True

instance (s : BroadcastSystem ε) : ∀ a, Decidable (s.Undisturbed a)
  | .next => inferInstanceAs (Decidable (∀ x ∈ s.drops, _ ∨ _))
  | .subscribe => inferInstanceAs (Decidable (_ ∨ _))
  | .unsubscribe _ | .publish _ _ | .close _ | .receive _ => .isTrue trivial

end BroadcastSystem

/-! ## One subscription -/

/-- What is kept of a subscription to which the events `due` are still to be sent. `careful` is what
the last part takes. -/
structure Subscription.Ok (careful : Prop) (x : Subscription ε)
    (published due : List (Publication ε)) : Prop where
  cap : x.channel.cap = subscriberBuffer
  since : x.since ≤ x.ended.getD published.length
  ended : x.ended.getD published.length ≤ published.length
  ordered : (x.received ++ x.channel.buf ++ due).Sublist (x.window published)
  kept : careful → ∃ gone, x.window published = gone ++ x.channel.buf ++ due ∧
    ∀ p ∈ gone, p ∈ x.received ∨ p.serial + 64 < x.ended.getD published.length

namespace Subscription

variable {careful : Prop} {x : Subscription ε} {published due : List (Publication ε)}
  {p q : Publication ε} {c : Channel (Publication ε)}

theorem window_publish (hs : x.since ≤ published.length) (he : x.ended = none)
    (p : Publication ε) : x.window (published ++ [p]) = x.window published ++ [p] := by
  simp only [window, he, Option.getD_none, List.take_length]
  exact List.drop_append_of_le_length hs

theorem window_ended {n : Nat} (he : x.ended = some n) (hn : n ≤ published.length)
    (p : Publication ε) : x.window (published ++ [p]) = x.window published := by
  simp only [window, he, Option.getD_some, List.take_append_of_le_length hn]

theorem Ok.publish (h : x.Ok careful published []) (he : x.ended = none) (p : Publication ε) :
    x.Ok careful (published ++ [p]) [p] := by
  have hs : x.since ≤ published.length := by simpa [he] using h.since
  have hn : published.length ≤ (published ++ [p]).length := by simp
  refine ⟨h.cap, ?_, ?_, ?_, fun hc => ?_⟩
  · rw [he]; exact hs.trans hn
  · rw [he]; exact Nat.le_refl _
  · rw [window_publish hs he]
    exact List.Sublist.append (by simpa using h.ordered) (List.Sublist.refl _)
  · obtain ⟨gone, hw, hgone⟩ := h.kept hc
    refine ⟨gone, by rw [window_publish hs he, hw, List.append_nil], fun q hq => ?_⟩
    rw [he] at hgone ⊢
    exact (hgone q hq).imp_right fun hlt => hlt.trans_le hn

/-- What is published to others than a subscription. -/
theorem Ok.publish_other (h : x.Ok careful published []) (he : careful → x.ended.isSome)
    (p : Publication ε) : x.Ok careful (published ++ [p]) [] := by
  have hn : published.length ≤ (published ++ [p]).length := by simp
  cases hx : x.ended with
  | none =>
    have hs : x.since ≤ published.length := by simpa [hx] using h.since
    refine ⟨h.cap, ?_, ?_, ?_, fun hc => ?_⟩
    · rw [hx]; exact hs.trans hn
    · rw [hx]; exact Nat.le_refl _
    · rw [window_publish hs hx]
      exact h.ordered.trans (List.sublist_append_left _ _)
    · have := he hc
      rw [hx] at this
      cases this
  | some n =>
    have hle : n ≤ published.length := by simpa [hx] using h.ended
    have hw := window_ended hx hle p
    refine ⟨h.cap, ?_, ?_, ?_, fun hc => ?_⟩
    · simpa [hx] using h.since
    · rw [hx]; exact hle.trans hn
    · rw [hw]; exact h.ordered
    · obtain ⟨gone, hg, hgone⟩ := h.kept hc
      refine ⟨gone, hw.trans hg, fun q hq => ?_⟩
      rw [hx] at hgone ⊢
      exact hgone q hq

theorem Ok.send (h : x.Ok careful published [p]) (hcap : c.cap = x.channel.cap)
    (hbuf : c.buf = x.channel.buf ++ [p]) :
    Ok careful { x with channel := c } published [] := by
  refine ⟨hcap.trans h.cap, h.since, h.ended, ?_, fun hc => ?_⟩
  · have hsame : x.received ++ c.buf ++ [] = x.received ++ x.channel.buf ++ [p] := by
      rw [hbuf, List.append_nil, List.append_assoc]
    exact hsame ▸ h.ordered
  · obtain ⟨gone, hw, hgone⟩ := h.kept hc
    refine ⟨gone, ?_, hgone⟩
    show x.window published = _
    rw [hw, hbuf, List.append_nil, List.append_assoc]

/-- A receive moves the head of the buffer to the log. -/
theorem Ok.receive (h : x.Ok careful published due) (hr : x.channel.tryRecv = (some q, c)) :
    Ok careful { x with channel := c, received := x.received ++ [q] } published due := by
  obtain ⟨hbuf, hcap, -, -⟩ := x.channel.tryRecv_spec
  rw [hr] at hbuf hcap
  have hbuf : x.channel.buf = q :: c.buf := hbuf.symm
  refine ⟨hcap.trans h.cap, h.since, h.ended, ?_, fun hc => ?_⟩
  · have hsame : x.received ++ [q] ++ c.buf ++ due = x.received ++ x.channel.buf ++ due := by
      rw [hbuf, List.append_assoc x.received, List.singleton_append]
    exact hsame ▸ h.ordered
  · obtain ⟨gone, hw, hgone⟩ := h.kept hc
    refine ⟨gone ++ [q], ?_, fun q' hq' => ?_⟩
    · show x.window published = _
      rw [hw, hbuf]
      simp
    · rcases List.mem_append.1 hq' with hq' | hq'
      · exact (hgone q' hq').imp_left fun hm => List.mem_append_left _ hm
      · exact .inl (List.mem_append_right _ hq')

theorem serial_eq (hn : published.map Publication.serial = List.range published.length) {k : Nat}
    (hk : published[k]? = some p) : p.serial = k := by
  have hserial := congrArg (·[k]?) hn
  simp only [List.getElem?_map, hk, Option.map_some] at hserial
  have hlt : k < published.length := (List.getElem?_eq_some_iff.1 hk).1
  rw [List.getElem?_range hlt] at hserial
  exact Option.some.inj hserial

/-- **What is dropped from a full buffer has 64 events behind it**: the rest of the buffer, and the
one that is to be sent. An empty one has nothing to drop. -/
theorem Ok.drop (h : x.Ok careful published [p]) (he : x.ended = none)
    (hn : published.map Publication.serial = List.range published.length)
    (hcalm : careful → x.channel.full ∨ x.channel.buf = []) :
    Ok careful { x with channel := x.channel.tryRecv.2 } published [p] := by
  obtain ⟨hbuf, hcap, -, hnone⟩ := x.channel.tryRecv_spec
  refine ⟨hcap.trans h.cap, h.since, h.ended, ?_, fun hc => ?_⟩
  · refine List.Sublist.trans (List.Sublist.append_right ?_ _) h.ordered
    rw [← hbuf, ← List.append_assoc]
    exact List.Sublist.append (List.sublist_append_left _ _) (List.Sublist.refl _)
  · obtain ⟨gone, hw, hgone⟩ := h.kept hc
    refine ⟨gone ++ x.channel.tryRecv.1.toList, ?_, fun q hq => ?_⟩
    · show x.window published = _
      rw [hw, ← hbuf]
      simp
    · rcases List.mem_append.1 hq with hq | hq
      · exact hgone q hq
      · refine .inr ?_
        rw [Option.mem_toList] at hq
        have hfull : x.channel.full := (hcalm hc).resolve_right fun he => by
          rw [hnone.2 he] at hq
          cases hq
        have hlen : x.channel.buf.length = 64 := hfull.trans h.cap
        rw [Option.mem_def.1 hq, Option.toList_some, List.singleton_append] at hbuf
        rw [window, he, Option.getD_none, List.take_length, ← hbuf] at hw
        have hat : published[x.since + gone.length]? = some q := by
          rw [← List.getElem?_drop, hw]
          simp
        have htotal := congrArg List.length hw
        rw [hbuf] at htotal
        simp only [List.length_drop, List.length_append, List.length_singleton, hlen] at htotal
        show q.serial + 64 < x.ended.getD published.length
        rw [serial_eq hn hat, he, Option.getD_none]
        omega

theorem Ok.close (h : x.Ok careful published due) (he : x.ended = none) (hc : c.buf = x.channel.buf)
    (hcap : c.cap = x.channel.cap) :
    Ok careful { x with channel := c, ended := some published.length } published due := by
  have hw : window { x with channel := c, ended := some published.length } published =
      x.window published := by
    simp only [window, he, Option.getD_none, Option.getD_some]
  have hs := h.since
  have hk := h.kept
  rw [he, Option.getD_none] at hs hk
  refine ⟨hcap.trans h.cap, hs, Nat.le_refl _, ?_, fun hcare => ?_⟩
  · rw [hw]
    exact hc ▸ h.ordered
  · obtain ⟨gone, hg, hgone⟩ := hk hcare
    exact ⟨gone, by rw [hw, hg, hc], hgone⟩

theorem ok_new {ended : Option Nat} (id : Option UInt64) (hc : c.cap = subscriberBuffer)
    (hb : c.buf = []) (hi : ended.getD published.length = published.length) :
    Ok careful ⟨c, id, false, [], published.length, ended⟩ published [] := by
  have hw : window ⟨c, id, false, [], published.length, ended⟩ published = [] := by
    simp only [window, hi, List.take_length, List.drop_length]
  refine ⟨hc, hi.ge, hi.le, ?_, fun _ => ⟨[], ?_, fun _ h => by cases h⟩⟩
  · rw [hw, hb]
    exact List.Sublist.refl _
  · rw [hw, hb]
    rfl

end Subscription

/-! ## The system -/

theorem forall_modify {α : Type _} {P Q : Nat → α → Prop} {l : List α} {i : Nat} {f : α → α}
    (h : ∀ j x, l[j]? = some x → P j x) (hother : ∀ j x, j ≠ i → P j x → Q j x)
    (hown : ∀ x, l[i]? = some x → Q i (f x)) : ∀ j x, (l.modify i f)[j]? = some x → Q j x := by
  intro j x hx
  rw [List.getElem?_modify, Option.map_eq_map, Option.map_eq_some_iff] at hx
  obtain ⟨y, hy, rfl⟩ := hx
  by_cases hj : i = j
  · subst hj
    rw [if_pos rfl]
    exact hown y hy
  · rw [if_neg hj]
    exact hother j y (Ne.symm hj) (h j y hy)

theorem forall_concat {α : Type _} {P : Nat → α → Prop} {l : List α} {a : α}
    (h : ∀ j x, l[j]? = some x → P j x) (hnew : P l.length a) :
    ∀ j x, (l ++ [a])[j]? = some x → P j x := by
  intro j x hx
  rcases Nat.lt_trichotomy j l.length with hj | rfl | hj
  · rw [List.getElem?_append_left hj] at hx
    exact h j x hx
  · rw [List.getElem?_concat_length] at hx
    cases hx
    exact hnew
  · rw [List.getElem?_eq_none (by rw [List.length_append]; exact hj)] at hx
    cases hx

namespace BroadcastSystem

structure Inv (careful : Prop) (s : BroadcastSystem ε) : Prop where
  numbered : s.published.map Publication.serial = List.range s.published.length
  registered : ∀ id i, s.subscribers.lookup id = some i →
    ∃ x, s.subscriptions[i]? = some x ∧ x.channel.closed = false ∧ x.ended = none
  distinct : ∀ id id' i, s.subscribers.lookup id = some i → s.subscribers.lookup id' = some i →
    id = id'
  iterates : ∀ e ∈ s.pc.todo, s.subscribers.lookup e.1 = some e.2
  nodup : (s.pc.todo.map Prod.snd).Nodup
  subscription : ∀ i (x : Subscription ε), s.subscriptions[i]? = some x →
    x.Ok careful s.published (s.pc.due i)
  alive : careful → ∀ i x, s.subscriptions[i]? = some x → s.current i ∨ x.ended.isSome
  noPanic : ∀ panic, s.pc ≠ .panicked panic
  last : ∀ p todo op, s.pc = .publish p todo op → s.published.getLast? = some p
  room : ∀ p id i todo, s.pc = .publish p ((id, i) :: todo) .resend →
    ∀ x, s.subscriptions[i]? = some x → ¬ x.channel.full
  enqueued : ∀ i x, s.subscriptions[i]? = some x → s.current i → s.pc.due i = [] →
    ∀ p, s.published.getLast? = some p → x.since ≤ p.serial → p ∈ x.received ++ x.channel.buf

variable {careful : Prop} {s : BroadcastSystem ε} {i : Nat} {x : Subscription ε}

theorem inv_start (careful : Prop) : (start : BroadcastSystem ε).Inv careful where
  numbered := rfl
  registered _ _ h := by cases h
  distinct _ _ _ h := by cases h
  iterates _ h := by cases h
  nodup := List.nodup_nil
  subscription _ _ h := by cases h
  alive _ _ _ h := by cases h
  noPanic _ h := by cases h
  last _ _ _ h := by cases h
  room _ _ _ _ h := by cases h
  enqueued _ _ h := by cases h

/-- **One subscription changes**, but for its end and its place, and the lock's holder goes on. -/
theorem Inv.modify (h : s.Inv careful) {f : Subscription ε → Subscription ε} {pc : BroadcastPc ε}
    (hx : s.subscriptions[i]? = some x) (hclosed : (f x).channel.closed = x.channel.closed)
    (hended : (f x).ended = x.ended) (hsince : (f x).since = x.since)
    (htodo : pc.todo.Sublist s.pc.todo) (hdue : ∀ j, j ≠ i → pc.due j = s.pc.due j)
    (hok : (f x).Ok careful s.published (pc.due i)) (hpanic : ∀ panic, pc ≠ .panicked panic)
    (hlast : ∀ p todo op, pc = .publish p todo op → s.published.getLast? = some p)
    (hroom : ∀ p id j todo, pc = .publish p ((id, j) :: todo) .resend →
      ∀ x, (s.subscriptions.modify i f)[j]? = some x → ¬ x.channel.full)
    (henq : pc.due i = [] → s.current i → ∀ p, s.published.getLast? = some p →
      x.since ≤ p.serial → p ∈ (f x).received ++ (f x).channel.buf) :
    Inv careful { s with subscriptions := s.subscriptions.modify i f, pc } where
  numbered := h.numbered
  registered id j hj := by
    obtain ⟨y, hy, hy1, hy2⟩ := h.registered id j hj
    refine ⟨_, (List.getElem?_modify ..).trans (congrArg _ hy), ?_, ?_⟩ <;> by_cases hij : i = j
    all_goals simp only [hij, if_true, if_false]
    · subst hij
      cases hx.symm.trans hy
      exact hclosed.trans hy1
    · exact hy1
    · subst hij
      cases hx.symm.trans hy
      exact hended.trans hy2
    · exact hy2
  distinct := h.distinct
  iterates e he := h.iterates e (htodo.subset he)
  nodup := h.nodup.sublist (htodo.map _)
  subscription := by
    refine forall_modify h.subscription (fun j y hj hy => ?_) fun y hy => ?_
    · exact (hdue j hj).symm ▸ hy
    · cases hx.symm.trans hy
      exact hok
  alive hc := by
    refine forall_modify (h.alive hc) (fun _ _ _ hy => hy) fun y hy => ?_
    cases hx.symm.trans hy
    rw [hended]
    exact h.alive hc i x hx
  noPanic := hpanic
  last := hlast
  room := hroom
  enqueued := by
    refine forall_modify h.enqueued (fun j y hj hy hcur hd => ?_) fun y hy hcur hd p hp hs => ?_
    · exact hy hcur ((hdue j hj).symm.trans hd)
    · cases hx.symm.trans hy
      exact henq hd hcur p hp (hsince ▸ hs)

theorem Inv.goto (h : s.Inv careful) {pc : BroadcastPc ε} (htodo : pc.todo.Sublist s.pc.todo)
    (hdue : ∀ i, pc.due i = s.pc.due i) (hpanic : ∀ panic, pc ≠ .panicked panic)
    (hlast : ∀ p todo op, pc = .publish p todo op → s.published.getLast? = some p)
    (hroom : ∀ p todo, pc ≠ .publish p todo .resend) : Inv careful { s with pc } where
  numbered := h.numbered
  registered := h.registered
  distinct := h.distinct
  iterates e he := h.iterates e (htodo.subset he)
  nodup := h.nodup.sublist (htodo.map _)
  subscription i x hx := (hdue i).symm ▸ h.subscription i x hx
  alive := h.alive
  noPanic := hpanic
  last := hlast
  room p _ _ _ hpc := absurd hpc (hroom p _)
  enqueued i x hx hcur hd := h.enqueued i x hx hcur ((hdue i).symm.trans hd)

/-! ### The operations of Publish, and receives -/

theorem Inv.open (h : s.Inv careful) {e : UInt64 × Nat} (he : e ∈ s.pc.todo)
    (hx : s.subscriptions[e.2]? = some x) : x.channel.closed = false ∧ x.ended = none := by
  obtain ⟨y, hy, hy'⟩ := h.registered e.1 e.2 (h.iterates e he)
  cases hx.symm.trans hy
  exact hy'

theorem Inv.publishNext (h : s.Inv careful) {p : Publication ε} {todo : List (UInt64 × Nat)}
    {op : PublishOp} (hpc : s.pc = .publish p todo op)
    (hcalm : careful → s.Undisturbed .next) : (s.publishNext p todo op).Inv careful := by
  cases todo with
  | nil =>
    exact h.goto (List.nil_sublist _) (fun i => by rw [hpc]; rfl) (fun _ => nofun)
      (fun _ _ _ => nofun)
      fun _ _ => nofun
  | cons e todo =>
    obtain ⟨id, i⟩ := e
    have hlast := h.last _ _ _ hpc
    have hnodup := h.nodup
    rw [hpc] at hnodup
    obtain ⟨hi, -⟩ := List.nodup_cons.1 hnodup
    have hdue : s.pc.due i = [p] := by rw [hpc, BroadcastPc.due_head]
    have hhead : (id, i) ∈ s.pc.todo := by
      rw [hpc]
      exact List.mem_cons_self
    unfold BroadcastSystem.publishNext
    dsimp only
    cases hx : s.subscriptions[i]? with
    | none => exact h
    | some x =>
      obtain ⟨hopen, hended⟩ := h.open hhead hx
      have hok := h.subscription i x hx
      rw [hdue] at hok
      -- a channel that has the event
      have sent : ∀ c : Channel (Publication ε), c.buf = x.channel.buf ++ [p] →
          c.cap = x.channel.cap → c.closed = false →
          Inv careful { s.setChannel i c with pc := .publish p todo .send } := by
        intro c hbuf hcap hc
        have hdone : (BroadcastPc.publish p todo .send).due i = [] := if_neg hi
        refine h.modify (f := fun x => { x with channel := c }) hx (hc.trans hopen.symm) rfl rfl
          ?_ (fun j hj => ?_) ?_ (fun _ => nofun) ?_ (fun _ _ _ _ => nofun) fun _ _ q hq _ => ?_
        · rw [hpc]
          exact List.sublist_cons_self _ _
        · simp only [hpc, BroadcastPc.due, List.map_cons, List.mem_cons, hj, false_or]
        · rw [hdone]
          exact hok.send hcap hbuf
        · rintro _ _ _ ⟨⟩
          exact hlast
        · cases hlast.symm.trans hq
          show p ∈ x.received ++ c.buf
          rw [hbuf]
          simp
      cases op with
      | send =>
        rcases Channel.trySend_open hopen p with ⟨-, hs⟩ | ⟨-, c, hs, hbuf, hcap, hc⟩ <;>
          simp only [hs]
        · refine h.goto ?_ (fun j => ?_) (fun _ => nofun) ?_ (fun _ _ => nofun)
          · rw [hpc]; exact List.Sublist.refl _
          · rw [hpc]; rfl
          · rintro _ _ _ ⟨⟩
            exact hlast
        · exact sent c hbuf hcap hc
      | drop =>
        show Inv careful { s.setChannel i x.channel.tryRecv.2 with
          pc := .publish p ((id, i) :: todo) .resend }
        refine h.modify (f := fun y => { y with channel := x.channel.tryRecv.2 }) hx
          x.channel.tryRecv_spec.2.2.1 rfl rfl ?_ (fun j _ => ?_) ?_ (fun _ => nofun) ?_ ?_ ?_
        · rw [hpc]; exact List.Sublist.refl _
        · rw [hpc]; rfl
        · rw [BroadcastPc.due_head]
          refine hok.drop hended h.numbered fun hc => hcalm hc x ?_
          rw [BroadcastSystem.drops, hpc]
          exact hx
        · rintro _ _ _ ⟨⟩
          exact hlast
        · rintro _ _ _ _ ⟨⟩ y hy
          rw [List.getElem?_modify, hx, Option.map_eq_map, Option.map_some, if_pos rfl] at hy
          cases hy
          exact Channel.tryRecv_not_full (by rw [hok.cap]; decide)
        · intro hd
          rw [BroadcastPc.due_head] at hd
          cases hd
      | resend =>
        have hroom := h.room _ _ _ _ hpc x hx
        rcases Channel.trySend_open hopen p with ⟨hfull, -⟩ | ⟨-, c, hs, hbuf, hcap, hc⟩
        · exact absurd hfull hroom
        · simp only [hs]
          exact sent c hbuf hcap hc

theorem Inv.receive (h : s.Inv careful) {q : Publication ε} {c : Channel (Publication ε)}
    (hx : s.subscriptions[i]? = some x) (hr : x.channel.tryRecv = (some q, c)) :
    Inv careful { s with
      subscriptions := s.subscriptions.modify i fun y =>
        { y with channel := c, received := y.received ++ [q] } } := by
  have hok := h.subscription i x hx
  obtain ⟨hbuf, -, hclosed, -⟩ := x.channel.tryRecv_spec
  rw [hr] at hbuf hclosed
  refine h.modify hx hclosed rfl rfl (List.Sublist.refl _) (fun _ _ => rfl) (hok.receive hr)
    h.noPanic h.last (fun p id j todo hpc => ?_) fun hd hcur p hp hs => ?_
  · intro y hy
    have hold : ∀ k y, s.subscriptions[k]? = some y → k = j → ¬ y.channel.full :=
      fun k y hy hk => h.room p id j todo hpc y (hk ▸ hy)
    refine forall_modify (Q := fun k y => k = j → ¬ y.channel.full) hold (fun _ _ _ h => h)
      (fun y hy _ => ?_) j y hy rfl
    have hroom := Channel.tryRecv_not_full (c := x.channel) (by rw [hok.cap]; decide)
    rw [hr] at hroom
    exact hroom
  · have hmem := h.enqueued i x hx hcur hd p hp hs
    rw [← hbuf] at hmem
    simpa using hmem

/-! ### The other calls -/

/-- A channel is closed and its entry removed, by a call that sends nothing. -/
theorem Inv.closeChannel (h : s.Inv careful) {id : UInt64} (hid : s.subscribers.lookup id = some i)
    (hdue : ∀ j, s.pc.due j = []) (hi : i ∉ s.pc.todo.map Prod.snd) :
    (s.closeChannel id i).Inv careful := by
  obtain ⟨x, hx, hopen, hended⟩ := h.registered id i hid
  unfold BroadcastSystem.closeChannel
  simp only [hx, Channel.close_open hopen]
  have hcur : ∀ j, (∃ id', (s.subscribers.erase id).lookup id' = some j) →
      s.current j ∧ j ≠ i := by
    rintro j ⟨id', hj⟩
    rw [Dict.lookup_erase_if] at hj
    split at hj
    · cases hj
    · next hne =>
      refine ⟨⟨id', hj⟩, fun hji => ?_⟩
      subst hji
      exact hne (h.distinct _ _ _ hj hid)
  have hstill : ∀ id' j, (s.subscribers.erase id).lookup id' = some j →
      s.subscribers.lookup id' = some j := by
    intro id' j hj
    rw [Dict.lookup_erase_if] at hj
    split at hj
    · cases hj
    · exact hj
  exact {
    numbered := h.numbered
    registered := fun id' j hj => by
      obtain ⟨y, hy, hy'⟩ := h.registered id' j (hstill id' j hj)
      refine ⟨y, ?_, hy'⟩
      rw [List.getElem?_modify, hy, Option.map_eq_map, Option.map_some,
        if_neg (hcur j ⟨id', hj⟩).2.symm]
    distinct := fun id1 id2 j h1 h2 => h.distinct id1 id2 j (hstill _ _ h1) (hstill _ _ h2)
    iterates := fun e he => by
      have hne : e.1 ≠ id := fun hid' => by
        have hlook := h.iterates e he
        rw [hid', hid] at hlook
        exact hi (Option.some.inj hlook ▸ List.mem_map_of_mem he)
      rw [Dict.lookup_erase_if, if_neg hne]
      exact h.iterates e he
    nodup := h.nodup
    subscription := forall_modify h.subscription (fun _ _ _ hy => hy) fun y hy => by
      cases hx.symm.trans hy
      exact (h.subscription i x hx).close hended rfl rfl
    alive := fun hc => forall_modify (h.alive hc)
      (fun j y hj hy => hy.imp_left fun ⟨id', hid'⟩ => ⟨id', by
        rw [Dict.lookup_erase_if, if_neg]
        · exact hid'
        · rintro rfl
          exact hj (Option.some.inj (hid'.symm.trans hid))⟩)
      fun _ _ => .inr rfl
    noPanic := h.noPanic
    last := h.last
    room := fun p id' j todo hpc => by
      have hsome := hdue j
      rw [show s.pc = _ from hpc, BroadcastPc.due_head] at hsome
      cases hsome
    enqueued := forall_modify h.enqueued
      (fun j y hj hy hcur' hd => hy (hcur j hcur').1 hd)
      fun y hy hcur' => absurd rfl (hcur i hcur').2 }

theorem Inv.unsubscribe (h : s.Inv careful) (hpc : s.pc = .idle) (i : Nat) :
    (s.unsubscribe i).Inv careful := by
  unfold BroadcastSystem.unsubscribe
  cases hx : s.subscriptions[i]? with
  | none => exact h
  | some x =>
    dsimp only
    cases x.id with
    | none => exact h
    | some id =>
      dsimp only
      split
      · exact h
      · have hok := h.subscription i x hx
        have honce : Inv careful { s with
            subscriptions := s.subscriptions.modify i fun y => { y with once := true } } :=
          h.modify hx rfl rfl rfl (List.Sublist.refl _) (fun _ _ => rfl)
            ⟨hok.cap, hok.since, hok.ended, hok.ordered, hok.kept⟩ h.noPanic h.last
            (fun _ _ _ _ hp => by rw [hpc] at hp; cases hp)
            fun hd hcur p hp hs => h.enqueued i x hx hcur hd p hp hs
        cases hcurrent : s.subscribers.lookup id with
        | none => exact honce
        | some current =>
          refine honce.closeChannel hcurrent (fun j => ?_) ?_ <;>
            simp [hpc, BroadcastPc.due, BroadcastPc.todo]

theorem Inv.last_serial (h : s.Inv careful) {p : Publication ε}
    (hp : s.published.getLast? = some p) : p.serial < s.published.length := by
  rw [List.getLast?_eq_getElem?] at hp
  rw [Subscription.serial_eq h.numbered hp]
  exact (List.getElem?_eq_some_iff.1 hp).1

theorem Inv.index_lt (h : s.Inv careful) {id : UInt64} (hid : s.subscribers.lookup id = some i) :
    i < s.subscriptions.length := by
  obtain ⟨x, hx, -⟩ := h.registered id i hid
  exact (List.getElem?_eq_some_iff.1 hx).1

/-- A subscription is added; the entry of its id may go to it. -/
theorem Inv.add (h : s.Inv careful) (hpc : s.pc = .idle) {subscribers : Dict UInt64 Nat}
    (nextID : UInt64) (hok : x.Ok careful s.published []) (hsince : x.since = s.published.length)
    (hreg : ∀ id j, subscribers.lookup id = some j →
      s.subscribers.lookup id = some j ∨
        id = nextID ∧ j = s.subscriptions.length ∧ x.channel.closed = false ∧ x.ended = none)
    (halive : careful → (∀ j, s.current j → ∃ id, subscribers.lookup id = some j) ∧
      ((∃ id, subscribers.lookup id = some s.subscriptions.length) ∨ x.ended.isSome)) :
    Inv careful { s with nextID, subscribers, subscriptions := s.subscriptions ++ [x] } where
  numbered := h.numbered
  registered id j hj := by
    rcases hreg id j hj with hold | ⟨-, rfl, hopen, hended⟩
    · obtain ⟨y, hy, hy'⟩ := h.registered id j hold
      exact ⟨y, (List.getElem?_append_left (h.index_lt hold)).trans hy, hy'⟩
    · exact ⟨x, List.getElem?_concat_length, hopen, hended⟩
  distinct id id' j h1 h2 := by
    rcases hreg id j h1 with hold | ⟨rfl, rfl, -⟩ <;> rcases hreg id' _ h2 with hold' | ⟨hn, hj, -⟩
    · exact h.distinct id id' j hold hold'
    · exact absurd hj (h.index_lt hold).ne
    · exact absurd rfl (h.index_lt hold').ne
    · exact hn.symm
  iterates e he := by rw [hpc] at he; cases he
  nodup := h.nodup
  subscription := forall_concat h.subscription (by rw [hpc]; exact hok)
  alive hc := forall_concat
    (fun j y hy => (h.alive hc j y hy).imp_left ((halive hc).1 j)) (halive hc).2
  noPanic := h.noPanic
  last := h.last
  room _ _ _ _ hp := by rw [hpc] at hp; cases hp
  enqueued := by
    refine forall_concat (fun j y hy hcur hd p hp hs => ?_) fun _ _ p hp hs => ?_
    · obtain ⟨id, hid⟩ := hcur
      rcases hreg id j hid with hold | ⟨-, rfl, -⟩
      · exact h.enqueued j y hy ⟨id, hold⟩ hd p hp hs
      · exact absurd (List.getElem?_eq_some_iff.1 hy).1 (Nat.lt_irrefl _)
    · exact absurd (hsince ▸ hs) (Nat.not_le.2 (h.last_serial hp))

theorem Inv.subscribe (h : s.Inv careful) (hpc : s.pc = .idle)
    (hcalm : careful → s.Undisturbed .subscribe) : s.subscribe.Inv careful := by
  unfold BroadcastSystem.subscribe
  dsimp only
  split
  · exact h.add hpc s.nextID (Subscription.ok_new none rfl rfl rfl) rfl (fun _ _ hj => .inl hj)
      fun _ => ⟨fun _ => id, .inr rfl⟩
  · next hclosed =>
    refine h.add hpc (s.nextID + 1) (Subscription.ok_new _ rfl rfl rfl) rfl (fun id j hj => ?_)
      fun hc => ⟨?_, .inl ⟨s.nextID + 1, AList.lookup_insert _⟩⟩
    · rcases Dict.lookup_insert_cases hj with ⟨rfl, rfl⟩ | ⟨-, hj⟩
      · exact .inr ⟨rfl, rfl, rfl, rfl⟩
      · exact .inl hj
    · rintro j ⟨id, hid⟩
      have hfree := (hcalm hc).resolve_left hclosed
      refine ⟨id, ?_⟩
      rw [Dict.lookup_insert_if, if_neg]
      · exact hid
      · rintro rfl
        rw [hfree] at hid
        cases hid

/-- An iteration over the subscribers comes to each channel once. -/
theorem Inv.order (h : s.Inv careful) {order : List (UInt64 × Nat)}
    (ho : order.Perm s.subscribers.toList) :
    (∀ e ∈ order, s.subscribers.lookup e.1 = some e.2) ∧ (order.map Prod.snd).Nodup ∧
      ∀ j, s.current j ↔ j ∈ order.map Prod.snd := by
  refine ⟨fun e he => Dict.mem_toList.1 (ho.mem_iff.1 he), ?_, fun j => ?_⟩
  · exact ((ho.map _).nodup_iff).2 (Dict.nodup_values h.distinct)
  · simp only [current, List.mem_map, Prod.exists, ho.mem_iff, Dict.mem_toList, exists_eq_right]

theorem Inv.publish (h : s.Inv careful) (hpc : s.pc = .idle) (event : ε)
    {order : List (UInt64 × Nat)} (ho : order.Perm s.subscribers.toList) :
    Inv careful { s with
      pc := .publish ⟨s.published.length, event⟩ order .send
      published := s.published ++ [⟨s.published.length, event⟩] } := by
  obtain ⟨hiter, hnodup, hcur⟩ := h.order ho
  exact {
    numbered := by
      rw [List.map_append, h.numbered, List.length_append, List.length_singleton, List.range_succ]
      rfl
    registered := h.registered
    distinct := h.distinct
    iterates := hiter
    nodup := hnodup
    subscription := fun i x hx => by
      have hok := h.subscription i x hx
      rw [hpc] at hok
      by_cases hi : i ∈ order.map Prod.snd
      · obtain ⟨id, hid⟩ := (hcur i).2 hi
        obtain ⟨y, hy, -, hended⟩ := h.registered id i hid
        cases hx.symm.trans hy
        rw [BroadcastPc.due, if_pos hi]
        exact hok.publish hended _
      · rw [BroadcastPc.due, if_neg hi]
        exact hok.publish_other
          (fun hc => (h.alive hc i x hx).resolve_left fun hj => hi ((hcur i).1 hj)) _
    alive := h.alive
    noPanic := fun _ => nofun
    last := by
      rintro _ _ _ ⟨⟩
      exact List.getLast?_concat
    room := fun _ _ _ _ => nofun
    enqueued := fun i x _ hi hd => by
      rw [BroadcastPc.due, if_pos ((hcur i).1 hi)] at hd
      cases hd }

theorem Inv.close (h : s.Inv careful) (hpc : s.pc = .idle) {order : List (UInt64 × Nat)}
    (ho : order.Perm s.subscribers.toList) :
    Inv careful { s with closed := true, pc := .close order } := by
  obtain ⟨hiter, hnodup, -⟩ := h.order ho
  exact { h with
    iterates := hiter
    nodup := hnodup
    subscription := fun i x hx => by
      have hok := h.subscription i x hx
      rw [hpc] at hok
      exact hok
    noPanic := fun _ => nofun
    last := fun _ _ _ => nofun
    room := fun _ _ _ _ => nofun
    enqueued := fun i x hx hcur _ => h.enqueued i x hx hcur (by rw [hpc]; rfl) }

/-- **Every step keeps the invariant.** -/
theorem Inv.step {s' : BroadcastSystem ε} {a : BroadcastAction ε} (h : s.Inv careful)
    (hcalm : careful → s.Undisturbed a) (hs : s.step a = some s') : s'.Inv careful := by
  unfold BroadcastSystem.step at hs
  split at hs
  · next i =>
    split at hs
    · cases hs
    · next x hx =>
      split at hs
      · next q c hr =>
        cases hs
        exact h.receive hx hr
      · split at hs <;> cases hs
        exact h
  · split at hs
    · next p todo op hpc =>
      cases hs
      exact h.publishNext hpc hcalm
    · next hpc =>
      cases hs
      exact h.goto (List.nil_sublist _) (fun i => by rw [hpc]; rfl) (fun _ => nofun)
        (fun _ _ _ => nofun) fun _ _ => nofun
    · next id i todo hpc =>
      cases hs
      have hiter := h.iterates (id, i) (by rw [hpc]; exact List.mem_cons_self)
      have hnodup := h.nodup
      rw [hpc] at hnodup
      have hrest : Inv careful { s with pc := .close todo } :=
        h.goto (by rw [hpc]; exact List.sublist_cons_self _ _) (fun j => by rw [hpc]; rfl)
          (fun _ => nofun) (fun _ _ _ => nofun) fun _ _ => nofun
      exact hrest.closeChannel hiter (fun _ => rfl) (List.nodup_cons.1 hnodup).1
    · cases hs
  · split at hs
    · next hpc _ _ =>
      cases hs
      exact h.subscribe hpc hcalm
    · next i hpc _ _ =>
      cases hs
      exact h.unsubscribe hpc i
    · next event order hpc _ _ =>
      split at hs
      · cases hs
        exact h
      · split at hs
        · next ho =>
          cases hs
          exact h.publish hpc event (List.isPerm_iff.1 ho)
        · cases hs
    · next order hpc _ _ =>
      split at hs
      · cases hs
        exact h
      · split at hs
        · next ho =>
          cases hs
          exact h.close hpc (List.isPerm_iff.1 ho)
        · cases hs
    · cases hs

/-! ## Runs -/

theorem Inv.delivers (h : s.Inv careful) : s.Delivers where
  noPanic := h.noPanic
  numbered := h.numbered
  ordered x hx := by
    obtain ⟨i, hi⟩ := List.mem_iff_getElem?.1 hx
    refine List.Sublist.trans ?_ (h.subscription i x hi).ordered
    rw [List.append_assoc]
    exact List.sublist_append_left _ _
  enqueued i x p hx hcur hd hp hs := h.enqueued i x hx hcur hd p hp hs

theorem Inv.losesOld (h : s.Inv True) : s.LosesOld := by
  intro i x hx p hp
  obtain ⟨gone, hw, hgone⟩ := (h.subscription i x hx).kept trivial
  rw [hw, List.append_assoc, List.mem_append, List.mem_append] at hp
  rcases hp with hp | hp | hp
  · rcases hgone p hp with hr | hlt
    · exact .inl hr
    · exact .inr (.inr (.inr hlt))
  · exact .inr (.inl hp)
  · exact .inr (.inr (.inl hp))

/-- **Live events.** Order, delivery and the absence of panics in every run; in a run of undisturbed
steps an event is lost only with 64 later ones published. -/
theorem live_events :
    (∀ s : BroadcastSystem ε, Run s → s.Delivers) ∧
    ∀ s : BroadcastSystem ε, Runs.Reach step Undisturbed (· = start) s →
      s.Delivers ∧ s.LosesOld := by
  constructor
  · intro s hs
    exact (hs.inv (fun _ h0 => h0 ▸ inv_start False)
      fun _ _ _ h _ hstep => h.step False.elim hstep).delivers
  · intro s hs
    have hinv : s.Inv True := hs.inv (fun _ h0 => h0 ▸ inv_start True)
      fun _ _ _ h hok hstep => h.step (fun _ => hok) hstep
    exact ⟨hinv.delivers, hinv.losesOld⟩

def samplePublish (event : Nat) : List (BroadcastAction Nat) :=
  [.publish event [(1, 0)], .next, .next]

/-- The buffer is full when event 64 is published and stays so; when event 65 is published it is
drained before the drop. -/
def calmActions : List (BroadcastAction Nat) :=
  .subscribe :: (List.range subscriberBuffer).flatMap samplePublish ++
    [.publish 64 [(1, 0)], .next, .next, .next, .next, .publish 65 [(1, 0)], .next] ++
    List.replicate 64 (.receive 0) ++ [.next, .next, .next]

/-- Event 0 is lost, with more than 64 later ones; the others are received or in the buffer. -/
theorem live_events_sample : ∃ s : BroadcastSystem Nat, Runs.Reach step Undisturbed (· = start) s ∧
    s.published.length = 66 ∧ s.subscriptions.map (fun x => (x.received.length, x.channel.buf)) =
      [(64, [⟨65, 65⟩])] ∧ s.Delivers ∧ s.LosesOld := by
  have hend : (Runs.exec (Runs.guarded step Undisturbed) start calmActions).any (fun s =>
      decide (s.published.length = 66 ∧
        s.subscriptions.map (fun x => (x.received.length, x.channel.buf)) =
          [(64, [⟨65, 65⟩])])) = true := by decide +kernel
  obtain ⟨s, hs, hend⟩ := (Option.any_eq_true _ _).1 hend
  obtain ⟨hpub, hsub⟩ := of_decide_eq_true hend
  have hr : Runs.Reach step Undisturbed (· = start) s := .exec_guarded (.init rfl) hs
  exact ⟨s, hr, hpub, hsub, live_events.2 s hr⟩

/-- The buffer is full when `Publish` tries to send, and holds one event when it drops. -/
def sampleActions : List (BroadcastAction Nat) :=
  .subscribe :: (List.range subscriberBuffer).flatMap samplePublish ++
    [.publish 64 [(1, 0)], .next] ++ List.replicate 63 (.receive 0) ++ [.next, .next, .next]

/-- Of 65 published events the last but one is lost. -/
theorem live_events_fails :
    ¬ ∀ s : BroadcastSystem Nat, Run s → s.Delivers ∧ s.LosesOld := by
  intro h
  have hend : (Runs.exec step start sampleActions).any (fun s =>
      s.subscriptions[0]?.any fun x => decide (⟨63, 63⟩ ∈ x.window s.published ∧
        ¬ (⟨63, 63⟩ ∈ x.received ∨ ⟨63, 63⟩ ∈ x.channel.buf ∨ ⟨63, 63⟩ ∈ s.pc.due 0 ∨
          63 + 64 < x.ended.getD s.published.length))) = true := by decide +kernel
  obtain ⟨s, hs, hlost⟩ := (Option.any_eq_true _ _).1 hend
  obtain ⟨x, hx, hlost⟩ := (Option.any_eq_true _ _).1 hlost
  obtain ⟨hwindow, hlost⟩ := of_decide_eq_true hlost
  have hrun : Run s := .exec (.init rfl) (fun _ _ _ => trivial) hs
  exact hlost ((h s hrun).2 0 x hx ⟨63, 63⟩ hwindow)

end BroadcastSystem

end HashBox.Api
