import Mathlib.Data.List.Pairwise
import HashBox.Lib.FilePath
import HashBox.Lib.Percent

/-!
# Routing a request by its path (`net/http`'s `ServeMux`)

A `Url` has the path of a request as it was sent and as it is read. `route` cleans the path that was
sent, redirects a request whose path changes under this or lacks the slash of a subtree's pattern,
and reads the segments of any other, one by one, to find its pattern. Patterns are literal paths
and subtrees; no two of a `ServeMux` match one path, so the order they are registered in does not
matter (`find_eq`).

A path of plain segments, sent escaped, is clean as it stands and its segments are the ones it was
made of (`cleanPath_sent`, `segments_sent`): a segment may have any bytes, slashes among them.
-/

open FilePath (slash dot Plain joined)
open Percent (percent escape unescape)

/-- `url.URL`. -/
structure Url where
  path : List UInt8
  /-- `EscapedPath` -/
  escapedPath : List UInt8
  unescaped : unescape escapedPath = some path
deriving DecidableEq

/-- `setPath`: none where the text is no valid escape. -/
def Url.parse (text : List UInt8) : Option Url :=
  match h : unescape text with
  | none => none
  | some path => some ⟨path, text, h⟩

namespace ServeMux

/-- The segments of a literal path, and whether it ends in a slash. -/
structure Pattern where
  segments : List (List UInt8)
  subtree : Bool
deriving DecidableEq

/-- The pattern of the path with these segments. -/
def Pattern.accepts (p : Pattern) (segments : List (List UInt8)) : Bool :=
  if p.subtree then p.segments.isPrefixOf segments && p.segments.length < segments.length
  else segments == p.segments

/-- Some path has both patterns. -/
def Pattern.overlaps (p q : Pattern) : Bool :=
  if p.subtree then
    if q.subtree then p.segments.isPrefixOf q.segments || q.segments.isPrefixOf p.segments
    else p.accepts q.segments
  else q.accepts p.segments

end ServeMux

structure ServeMux (η : Type*) where
  routes : List (ServeMux.Pattern × η)
  disjoint : routes.Pairwise fun p q => p.1.overlaps q.1 = false

inductive ServeMux.Route (η : Type*)
  | handler (h : η)
  /-- `StatusMovedPermanently`, with the `Location`. -/
  | redirect (location : List UInt8)
  | notFound
deriving DecidableEq, Repr

namespace ServeMux

variable {η : Type*}

def cleanPath (p : List UInt8) : List UInt8 :=
  if p = [] then [slash]
  else
    let p := if FilePath.isRooted p then p else slash :: p
    let np := FilePath.clean p
    if p.getLast? = some slash ∧ np ≠ [slash] then np ++ [slash] else np

def pathUnescape (s : List UInt8) : List UInt8 := (unescape s).getD s

/-- The segments of a path, as `firstSegment` reads them off; a slash at the end is an empty one. -/
def segments (path : List UInt8) : List (List UInt8) :=
  (path.splitOn slash).tail.map pathUnescape

/-- What `shouldEscape` keeps of a path. -/
def keepsPath (b : UInt8) : Bool :=
  (97 ≤ b && b ≤ 122) || (65 ≤ b && b ≤ 90) || (48 ≤ b && b ≤ 57) ||
    b ∈ [45, 95, 46, 126] || b ∈ [36, 38, 43, 44, 47, 58, 59, 61, 64]

/-- What `shouldEscape` keeps of a path segment. -/
def keepsSegment (b : UInt8) : Bool := keepsPath b && !(b ∈ [47, 59, 44])

/-- `url.PathEscape`. -/
def pathEscape (s : List UInt8) : List UInt8 := escape keepsSegment s

def find (mux : ServeMux η) (segments : List (List UInt8)) : Option (Pattern × η) :=
  mux.routes.find? fun r => r.1.accepts segments

/-- `matchOrRedirect` redirects to the path with a slash at its end: the path has the pattern of
the subtree's root but for the slash, and no pattern of its own. -/
def lacksSlash (mux : ServeMux η) (path : List UInt8) : Bool :=
  path.getLast? ≠ some slash &&
    mux.routes.any (fun r => r.1.subtree && segments path == r.1.segments) &&
    !mux.routes.any (fun r => !r.1.subtree && segments path == r.1.segments)

/-- `findHandler`. `CONNECT` requests are not canonicalized. -/
def route (mux : ServeMux η) (method : String) (url : Url) : Route η :=
  let path := if method = "CONNECT" then url.escapedPath else cleanPath url.escapedPath
  if mux.lacksSlash path then .redirect (escape keepsPath (cleanPath url.path ++ [slash]))
  else if path ≠ url.escapedPath then .redirect (escape keepsPath path)
  else
    match mux.find (segments path) with
    | none => .notFound
    | some r => .handler r.2

/-! ## Following redirects -/

/-- What a client sends, and sends again when it is redirected. -/
structure Message where
  method : String
  url : Url
  body : List UInt8

/-- `redirectBehavior` for the status 301. -/
def Message.redirected (m : Message) (url : Url) : Message :=
  { method := if m.method = "HEAD" then "HEAD" else "GET", url, body := [] }

/-- The message that gets past the redirects of the mux, of the `n` that the client sends; none
where it gives up. -/
def land (mux : ServeMux η) : (n : Nat) → Message → Option Message
  | 0, _ => none
  | n + 1, m =>
    match mux.route m.method m.url with
    | .redirect location => (Url.parse location).bind fun url => mux.land n (m.redirected url)
    | _ => some m

/-! ## Patterns -/

theorem Pattern.overlaps_comm (p q : Pattern) : p.overlaps q = q.overlaps p := by
  unfold overlaps
  cases hp : p.subtree <;> cases hq : q.subtree
  · simp [accepts, hp, hq, Bool.beq_comm]
  · rfl
  · rfl
  · simp [Bool.or_comm]

theorem Pattern.overlaps_of_accepts {p q : Pattern} {segs : List (List UInt8)}
    (hp : p.accepts segs = true) (hq : q.accepts segs = true) : p.overlaps q = true := by
  unfold overlaps
  cases hps : p.subtree with
  | false =>
    simp only [accepts, hps, Bool.false_eq_true, if_false, beq_iff_eq] at hp
    rw [if_neg Bool.false_ne_true, ← hp]
    exact hq
  | true =>
    rw [if_pos rfl]
    cases hqs : q.subtree with
    | false =>
      simp only [accepts, hqs, Bool.false_eq_true, if_false, beq_iff_eq] at hq
      rw [if_neg Bool.false_ne_true, ← hq]
      exact hp
    | true =>
      simp only [accepts, hps, hqs, if_true, Bool.and_eq_true, List.isPrefixOf_iff_prefix] at hp hq
      rw [if_pos rfl, Bool.or_eq_true, List.isPrefixOf_iff_prefix, List.isPrefixOf_iff_prefix]
      exact List.prefix_or_prefix_of_prefix hp.1 hq.1

theorem overlaps_eq_false {mux : ServeMux η} {r q : Pattern × η} (hr : r ∈ mux.routes)
    (hq : q ∈ mux.routes) (hne : r.1 ≠ q.1) : r.1.overlaps q.1 = false := by
  have hsymm : Std.Symm fun p q : Pattern × η => p.1.overlaps q.1 = false :=
    ⟨fun a b h => (b.1.overlaps_comm a.1).trans h⟩
  exact mux.disjoint.forall hr hq fun h => hne (congrArg Prod.fst h)

theorem Pattern.accepts_below {p : Pattern} (hp : p.subtree = true) (s : List UInt8)
    (rest : List (List UInt8)) : p.accepts (p.segments ++ s :: rest) = true := by
  rw [accepts, if_pos hp, Bool.and_eq_true, List.isPrefixOf_iff_prefix, decide_eq_true_eq,
    List.length_append, List.length_cons]
  exact ⟨List.prefix_append _ _, by omega⟩

/-- **A pattern that matches is the one found**, whatever the order of the patterns. -/
theorem find_eq {mux : ServeMux η} {r : Pattern × η} {segs : List (List UInt8)}
    (hr : r ∈ mux.routes) (h : r.1.accepts segs = true) : mux.find segs = some r := by
  obtain ⟨routes, hdisjoint⟩ := mux
  unfold find
  dsimp only at hr ⊢
  induction routes with
  | nil => cases hr
  | cons first rest ih =>
    obtain ⟨hfirst, hrest⟩ := List.pairwise_cons.1 hdisjoint
    rcases List.mem_cons.1 hr with rfl | hr
    · exact List.find?_cons_of_pos h
    · have hne : ¬ first.1.accepts segs = true := by
        intro hf
        have hoverlaps := Pattern.overlaps_of_accepts hf h
        rw [hfirst r hr] at hoverlaps
        cases hoverlaps
      rw [List.find?_cons_of_neg (p := fun q : Pattern × η => q.1.accepts segs) hne]
      exact ih hrest hr

/-! ## A path sent segment by segment -/

theorem keepsSegment_percent : keepsSegment percent = false := rfl

/-- The path of these segments, each escaped. -/
def sent (segs : List (List UInt8)) : List UInt8 := slash :: joined (segs.map pathEscape)

theorem slash_notMem_pathEscape (s : List UInt8) : slash ∉ pathEscape s := by
  intro h
  rcases Percent.mem_escape h with h | h | ⟨h, -⟩ | ⟨h, -⟩ <;> revert h <;> decide

theorem plain_pathEscape {s : List UInt8} (hnil : s ≠ []) (hdot : s ≠ [dot])
    (hdotdot : s ≠ [dot, dot]) : Plain (pathEscape s) := by
  have hinj : Function.Injective pathEscape := Percent.escape_injective keepsSegment_percent
  refine ⟨fun h => hnil (Percent.escape_eq_nil.1 h), fun h => hdot (hinj ?_),
    fun h => hdotdot (hinj ?_), slash_notMem_pathEscape s⟩
  · rw [h]
    rfl
  · rw [h]
    rfl

theorem pathUnescape_pathEscape (s : List UInt8) : pathUnescape (pathEscape s) = s := by
  rw [pathUnescape, pathEscape, Percent.unescape_escape keepsSegment_percent, Option.getD_some]

section
variable {segs : List (List UInt8)} (hne : segs ≠ [])
include hne

/-- **The segments of a path are those it was sent with.** -/
theorem segments_sent : segments (sent segs) = segs := by
  have hskip : (sent segs).splitOn slash = [] :: (joined (segs.map pathEscape)).splitOn slash :=
    List.splitOn_append_cons_self [] _
  have hslash : ∀ name ∈ segs.map pathEscape, slash ∉ name := by
    intro name hname
    obtain ⟨s, -, rfl⟩ := List.mem_map.1 hname
    exact slash_notMem_pathEscape s
  rw [segments, hskip, List.tail_cons, FilePath.splitOn_joined (by simpa using hne) hslash,
    List.map_map]
  exact (List.map_congr_left fun s _ => pathUnescape_pathEscape s).trans (List.map_id segs)

/-- What the server reads as the path. -/
theorem unescape_sent : unescape (sent segs) = some (slash :: joined segs) := by
  have hplain : ∀ rest, unescape (slash :: rest) = (unescape rest).map (slash :: ·) :=
    Percent.unescape_cons (by decide)
  rw [sent, hplain]
  have hjoined : unescape (joined (segs.map pathEscape)) = some (joined segs) := by
    induction segs with
    | nil => exact absurd rfl hne
    | cons s rest ih =>
      cases rest with
      | nil =>
        rw [List.map_singleton, joined, List.intercalate_singleton, joined,
          List.intercalate_singleton]
        exact Percent.unescape_escape keepsSegment_percent s
      | cons next rest =>
        have hrest := ih (List.cons_ne_nil _ _)
        have hcons : ∀ a b (l : List (List UInt8)),
            joined (a :: b :: l) = a ++ slash :: joined (b :: l) := by
          intro a b l
          rw [joined, List.intercalate_cons_cons, List.append_assoc, List.singleton_append]
          rfl
        rw [List.map_cons, List.map_cons, hcons, hcons, ← List.map_cons, pathEscape,
          Percent.unescape_escape_append keepsSegment_percent, hplain, hrest]
        rfl
  rw [hjoined, Option.map_some]

/-- The URL of these segments, as the server reads it. -/
theorem parse_sent : ∃ url, Url.parse (sent segs) = some url ∧ url.escapedPath = sent segs ∧
    url.path = slash :: joined segs := by
  have hun := unescape_sent hne
  unfold Url.parse
  split
  · next h =>
    rw [hun] at h
    cases h
  · next path h =>
    rw [hun] at h
    exact ⟨_, rfl, rfl, (Option.some.inj h).symm⟩

variable (hplain : ∀ s ∈ segs, s ≠ [] ∧ s ≠ [dot] ∧ s ≠ [dot, dot])
include hplain

theorem getLast?_sent : (sent segs).getLast? ≠ some slash := by
  obtain ⟨front, last, rfl⟩ := List.eq_nil_or_concat segs |>.resolve_left hne
  have hlast := hplain last (by simp)
  have hp := plain_pathEscape hlast.1 hlast.2.1 hlast.2.2
  have htail : ∃ before, sent (front.concat last) = before ++ pathEscape last := by
    rw [sent, List.concat_eq_append, List.map_append, List.map_singleton]
    by_cases hfront : front = []
    · rw [hfront, List.map_nil, List.nil_append, joined, List.intercalate_singleton]
      exact ⟨[slash], rfl⟩
    · rw [FilePath.joined_append (by simpa using hfront) (List.cons_ne_nil _ _)]
      refine ⟨slash :: joined (front.map pathEscape) ++ [slash], ?_⟩
      rw [joined, joined, List.intercalate_singleton]
      simp
  obtain ⟨before, hbefore⟩ := htail
  rw [hbefore, List.getLast?_append_of_ne_nil _ hp.ne_nil]
  exact fun h => hp.no_slash (List.mem_of_getLast? h)

/-- **A path of plain segments is clean as it is sent.** -/
theorem cleanPath_sent : cleanPath (sent segs) = sent segs := by
  have hall : ∀ name ∈ segs.map pathEscape, Plain name := by
    intro name hname
    obtain ⟨s, hs, rfl⟩ := List.mem_map.1 hname
    obtain ⟨h1, h2, h3⟩ := hplain s hs
    exact plain_pathEscape h1 h2 h3
  have hclean : FilePath.clean (sent segs) = sent segs :=
    FilePath.clean_under hall (by simpa using hne) [slash]
  have hroot : FilePath.isRooted (sent segs) = true := rfl
  rw [cleanPath, if_neg (by simp [sent])]
  simp only [hroot, if_true, hclean]
  exact if_neg fun h => getLast?_sent hne hplain h.1

/-- **The handler of the pattern gets the request**, if the path is not the root of a subtree. -/
theorem route_sent {mux : ServeMux η} {r : Pattern × η} (hr : r ∈ mux.routes)
    (haccepts : r.1.accepts segs = true)
    (hroots : ∀ q ∈ mux.routes, q.1.subtree = true → segs ≠ q.1.segments)
    (method : String) {url : Url} (hurl : url.escapedPath = sent segs) :
    mux.route method url = .handler r.2 := by
  have hpath : (if method = "CONNECT" then url.escapedPath else cleanPath url.escapedPath) =
      sent segs := by
    rw [hurl, cleanPath_sent hne hplain, ite_self]
  have hlacks : mux.lacksSlash (sent segs) = false := by
    have hany : mux.routes.any (fun q => q.1.subtree && segments (sent segs) == q.1.segments) =
        false := by
      rw [List.any_eq_false]
      intro q hq
      rw [segments_sent hne, Bool.and_eq_true, beq_iff_eq, not_and]
      exact hroots q hq
    rw [lacksSlash, hany, Bool.and_false, Bool.false_and]
  unfold route
  rw [hpath]
  simp only [hlacks, Bool.false_eq_true, if_false, hurl, ne_eq, not_true_eq_false,
    segments_sent hne, find_eq hr haccepts]

end

/-- **The handler of a subtree gets the requests below it.** -/
theorem route_below {mux : ServeMux η} {r : Pattern × η} (hr : r ∈ mux.routes)
    (hsub : r.1.subtree = true) {s : List UInt8} {rest : List (List UInt8)}
    (hplain : ∀ name ∈ r.1.segments ++ s :: rest,
      name ≠ [] ∧ name ≠ [dot] ∧ name ≠ [dot, dot])
    (method : String) {url : Url} (hurl : url.escapedPath = sent (r.1.segments ++ s :: rest)) :
    mux.route method url = .handler r.2 := by
  refine route_sent (by simp) hplain hr (Pattern.accepts_below hsub s rest) (fun q hq hqs he => ?_)
    method hurl
  -- the root of another subtree below this one would overlap it
  have hne : r.1 ≠ q.1 := by
    intro h
    have hlen := congrArg List.length he
    rw [h, List.length_append, List.length_cons] at hlen
    omega
  have hoverlaps := overlaps_eq_false hr hq hne
  rw [Pattern.overlaps, if_pos hsub, if_pos hqs, Bool.or_eq_false_iff] at hoverlaps
  have hprefix : r.1.segments.isPrefixOf q.1.segments = true := by
    rw [List.isPrefixOf_iff_prefix, ← he]
    exact List.prefix_append _ _
  rw [hoverlaps.1] at hprefix
  cases hprefix

/-! ## Where a client lands -/

theorem land_of_route {mux : ServeMux η} {m : Message} {h : η}
    (hroute : mux.route m.method m.url = .handler h) (n : Nat) :
    mux.land (n + 1) m = some m := by
  rw [land, hroute]

end ServeMux
