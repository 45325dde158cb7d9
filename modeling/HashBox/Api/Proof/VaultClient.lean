import HashBox.Api.VaultClient
import HashBox.Vault.Proof.Server

/-!
# The Vault as its client sees it

What the server is asked does not depend on its state: `Lands` says which handler gets a call of the
client, with which method and path, after the redirects of the mux. An id that is no dot segment
arrives as it was given, whatever its bytes (`lands_below`); the others reach no operation.
`Operation.direct` is the same call made of the Store itself, with the slashes that the server trims
from an id. Both give the same results and the same disk over every run of the Vault's process
(`client_transparent`), whether the peer is admitted or not.
-/

namespace HashBox.Api.VaultClient

open Vault (Bytes Hash)
open Vault.Paths (bytes)
open Vault.Uds
open FilePath (slash dot joined)
open ServeMux (Message pathEscape)

variable {cfg : Config} {blake3 : Bytes → Hash} {ctx : Context} {s : Server}

/-! ## Where a call arrives -/

/-- The call's path is a URL, and its last message has this method, path and body, and this
handler. -/
def Lands (method : String) (path body : Bytes) (h : Handler) (method' : String)
    (path' body' : Bytes) : Prop :=
  ∃ url m, Url.parse path = some url ∧ mux.land 10 ⟨method, url, body⟩ = some m ∧
    mux.route m.method m.url = .handler h ∧ m.method = method' ∧ m.url.path = path' ∧
      m.body = body'

/-- The call's last message has no handler. -/
def Missed (method : String) (path body : Bytes) : Prop :=
  ∃ url m, Url.parse path = some url ∧ mux.land 10 ⟨method, url, body⟩ = some m ∧
    mux.route m.method m.url = .notFound

theorem handle_ne_redirect {r : Request} {h : Handler} (location : Bytes) :
    (handle cfg s r blake3 h).1.body ≠ .redirect location := by
  intro he
  by_cases hh : h = .upload
  · subst hh
    dsimp only [handle, handleUpload] at he
    split at he
    · have hplain := refuseMethod_plain cfg s r
      rw [he] at hplain
      cases hplain
    · split at he <;> cases he
  · have hplain := handle_plain cfg s r blake3 hh
    rw [he] at hplain
    cases hplain

section
variable (hadmits : cfg.admits ctx.uid = true)
include hadmits

theorem follow_land {headers : Headers} : ∀ {n : Nat} {m m' : Message},
    mux.land n m = some m' →
      follow cfg blake3 ctx headers n s m =
        (some (serveMux cfg s (request ctx headers m') blake3).1,
          (serveMux cfg s (request ctx headers m') blake3).2) := by
  intro n
  induction n with
  | zero => intro m m' h; cases h
  | succ n ih =>
    intro m m' h
    rw [follow, serve_admitted cfg s _ blake3 hadmits]
    rw [ServeMux.land] at h
    cases hroute : mux.route m.method m.url with
    | redirect location =>
      rw [hroute] at h
      obtain ⟨url, hurl, hnext⟩ := Option.bind_eq_some_iff.1 h
      have hserve : serveMux cfg s (request ctx headers m) blake3 =
          (⟨301, .redirect location⟩, s) := by
        unfold serveMux
        rw [request, hroute]
      rw [hserve]
      simp only [hurl]
      exact ih hnext
    | handler handler =>
      rw [hroute] at h
      cases h
      have hserve : serveMux cfg s (request ctx headers m) blake3 =
          handle cfg s (request ctx headers m) blake3 handler := by
        unfold serveMux
        rw [show (request ctx headers m).method = m.method from rfl,
          show (request ctx headers m).url = m.url from rfl, hroute]
      rw [hserve]
      split
      · next location _ he =>
        exact absurd (congrArg (·.1.body) he) (handle_ne_redirect location)
      · next he => rw [he]
    | notFound =>
      rw [hroute] at h
      cases h
      have hserve : serveMux cfg s (request ctx headers m) blake3 =
          (⟨404, .text "404 page not found"⟩, s) := by
        unfold serveMux
        rw [request, hroute]
      rw [hserve]

/-- **What a call gets** from the handler it lands at. -/
theorem exchange_lands (blake3 : Bytes → Hash) (headers : Headers) {method method' : String}
    {path body path' body' : Bytes} {h : Handler}
    (hheaders : (validHeaderFieldValue headers.fileName &&
      validHeaderFieldValue headers.runID) = true)
    (hlands : Lands method path body h method' path' body') :
    ∃ url, url.path = path' ∧ ∀ s, exchange cfg blake3 ctx s headers method path body =
      (.ok (handle cfg s (request ctx headers ⟨method', url, body'⟩) blake3 h).1,
        (handle cfg s (request ctx headers ⟨method', url, body'⟩) blake3 h).2) := by
  obtain ⟨url, m, hurl, hland, hroute, rfl, rfl, rfl⟩ := hlands
  refine ⟨m.url, rfl, fun s => ?_⟩
  have hserve : serveMux cfg s (request ctx headers m) blake3 =
      handle cfg s (request ctx headers m) blake3 h := by
    unfold serveMux
    rw [show (request ctx headers m).method = m.method from rfl,
      show (request ctx headers m).url = m.url from rfl, hroute]
  unfold exchange
  rw [hurl]
  simp only [hheaders, not_true_eq_false, if_false, follow_land hadmits hland, hserve]

theorem exchange_missed {headers : Headers} {method : String} {path body : Bytes}
    (hheaders : (validHeaderFieldValue headers.fileName &&
      validHeaderFieldValue headers.runID) = true)
    (hmissed : Missed method path body) (s : Server) :
    exchange cfg blake3 ctx s headers method path body =
      (.ok ⟨404, .text "404 page not found"⟩, s) := by
  obtain ⟨url, m, hurl, hland, hroute⟩ := hmissed
  have hserve : serveMux cfg s (request ctx headers m) blake3 =
      (⟨404, .text "404 page not found"⟩, s) := by
    unfold serveMux
    rw [request, hroute]
  unfold exchange
  rw [hurl]
  simp only [hheaders, not_true_eq_false, if_false, follow_land hadmits hland, hserve]

end

/-! ## Ids in paths -/

/-- The id is no dot segment, so the mux leaves it in its place. -/
def Named (id : Bytes) : Prop := id ≠ [] ∧ id ≠ [dot] ∧ id ≠ [dot, dot]

theorem joined_cons (x : Bytes) (tail : List Bytes) :
    joined (x :: tail) = x ++ tail.flatMap (slash :: ·) := by
  induction tail generalizing x with
  | nil => simp [joined]
  | cons y tail ih =>
    rw [joined, List.intercalate_cons_cons, ← joined, ih, List.flatMap_cons, List.append_assoc]
    rfl

theorem joined_below {front : List Bytes} (hfront : front ≠ []) (x : Bytes) (tail : List Bytes) :
    slash :: joined (front ++ x :: tail) =
      (slash :: joined front ++ [slash]) ++ x ++ tail.flatMap (slash :: ·) := by
  rw [FilePath.joined_append hfront (List.cons_ne_nil _ _), joined_cons]
  simp

/-- **An id arrives as it was given**, between the pattern of a subtree and the segments behind. -/
theorem lands_below {r : ServeMux.Pattern × Handler} (tail : List Bytes) (hr : r ∈ mux.routes)
    (hsub : r.1.subtree = true) (hne : r.1.segments ≠ [])
    (hkept : ∀ name ∈ r.1.segments ++ tail, pathEscape name = name ∧ Named name) {id : Bytes}
    (hid : Named id) (method : String) (body : Bytes) :
    Lands method ((slash :: joined r.1.segments ++ [slash]) ++ pathEscape id ++
        tail.flatMap (slash :: ·)) body r.2
      method ((slash :: joined r.1.segments ++ [slash]) ++ id ++ tail.flatMap (slash :: ·))
      body := by
  obtain ⟨hfront, htail⟩ := List.forall_mem_append.1 hkept
  have hsegs : r.1.segments ++ id :: tail ≠ [] := by simp
  obtain ⟨url, hparse, hescaped, hpath⟩ := ServeMux.parse_sent hsegs
  have hescape : ∀ {names : List Bytes}, (∀ name ∈ names, pathEscape name = name ∧ Named name) →
      names.map pathEscape = names :=
    fun h => (List.map_congr_left fun name hname => (h name hname).1).trans (List.map_id _)
  have hsent : ServeMux.sent (r.1.segments ++ id :: tail) =
      (slash :: joined r.1.segments ++ [slash]) ++ pathEscape id ++ tail.flatMap (slash :: ·) := by
    rw [ServeMux.sent, List.map_append, List.map_cons, hescape hfront, hescape htail,
      joined_below hne]
  have hplain : ∀ name ∈ r.1.segments ++ id :: tail, Named name := by
    rw [List.forall_mem_append, List.forall_mem_cons]
    exact ⟨fun name h => (hfront name h).2, hid, fun name h => (htail name h).2⟩
  have hroute := ServeMux.route_below hr hsub hplain method hescaped
  refine ⟨url, ⟨method, url, body⟩, hsent ▸ hparse, ServeMux.land_of_route hroute 9, hroute, rfl,
    ?_, rfl⟩
  rw [hpath, joined_below hne]

instance (id : Bytes) : Decidable (Named id) := inferInstanceAs (Decidable (_ ∧ _ ∧ _))

theorem named_or (id : Bytes) : Named id ∨ id = [] ∨ id = [dot] ∨ id = [dot, dot] := by
  unfold Named
  tauto

section
variable {id : Bytes} (hid : Named id) (method : String) (body : Bytes)
include hid

theorem lands_manifest :
    Lands method (bytes "/internal/v1/manifests/" ++ pathEscape id) body .manifest
      method (bytes "/internal/v1/manifests/" ++ id) body := by
  have h := lands_below (r := (internal ["manifests"] true, .manifest)) [] (by decide +kernel) rfl
    (by decide) (by decide +kernel) hid method body
  have htext : slash :: joined (internal ["manifests"] true).segments ++ [slash] =
      bytes "/internal/v1/manifests/" := by decide
  rwa [htext, List.flatMap_nil, List.append_nil, List.append_nil] at h

theorem lands_object :
    Lands method (bytes "/internal/v1/read-proxy/objects/" ++ pathEscape id) body .readProxyObject
      method (bytes "/internal/v1/read-proxy/objects/" ++ id) body := by
  have h := lands_below (r := (internal ["read-proxy", "objects"] true, .readProxyObject)) []
    (by decide +kernel) rfl (by decide) (by decide +kernel) hid method body
  have htext : slash :: joined (internal ["read-proxy", "objects"] true).segments ++ [slash] =
      bytes "/internal/v1/read-proxy/objects/" := by decide
  rwa [htext, List.flatMap_nil, List.append_nil, List.append_nil] at h

theorem lands_operation {operation : String} (hop : operation = "retire" ∨ operation = "retain") :
    Lands method (bytes "/internal/v1/manifests/" ++ pathEscape id ++ bytes ("/" ++ operation))
      body .manifest method (bytes "/internal/v1/manifests/" ++ id ++ bytes ("/" ++ operation))
      body := by
  have hkept : ∀ name ∈ (internal ["manifests"] true).segments ++ [bytes operation],
      pathEscape name = name ∧ Named name := by
    rcases hop with rfl | rfl <;> decide +kernel
  have h := lands_below (r := (internal ["manifests"] true, .manifest)) [bytes operation]
    (by decide +kernel) rfl (by decide) hkept hid method body
  have htext : slash :: joined (internal ["manifests"] true).segments ++ [slash] =
      bytes "/internal/v1/manifests/" := by decide
  have htail : [bytes operation].flatMap (slash :: ·) = bytes ("/" ++ operation) := by
    rcases hop with rfl | rfl <;> decide
  rwa [htext, htail] at h

theorem lands_chunk :
    Lands method (bytes "/internal/v1/chunks/" ++ pathEscape id ++ bytes "/status") body
      .chunkStatus method (bytes "/internal/v1/chunks/" ++ id ++ bytes "/status") body := by
  have h := lands_below (r := (internal ["chunks"] true, .chunkStatus)) [bytes "status"]
    (by decide +kernel) rfl (by decide) (by decide +kernel) hid method body
  have htext : slash :: joined (internal ["chunks"] true).segments ++ [slash] =
      bytes "/internal/v1/chunks/" := by decide
  have htail : [bytes "status"].flatMap (slash :: ·) = bytes "/status" := by decide
  rwa [htext, htail] at h

end

theorem lands_upload (content : Bytes) :
    Lands "POST" (bytes "/internal/v1/uploads") content .upload "POST"
      (bytes "/internal/v1/uploads") content := by
  have hroute : (Url.parse (bytes "/internal/v1/uploads")).map
      (fun url => (mux.route "POST" url, url.path)) =
        some (.handler .upload, bytes "/internal/v1/uploads") := by decide +kernel
  obtain ⟨url, hurl, he⟩ := Option.map_eq_some_iff.1 hroute
  obtain ⟨hhandler, hpath⟩ := Prod.mk.inj he
  exact ⟨url, ⟨"POST", url, content⟩, hurl, ServeMux.land_of_route hhandler 9, hhandler, rfl, hpath,
    rfl⟩

/-! ## Dot segments -/

/-- Where a call without a body arrives. -/
def landing (method : String) (path : Bytes) :
    Option (ServeMux.Route Handler × String × Bytes × Bytes) :=
  ((Url.parse path).bind fun url => mux.land 10 ⟨method, url, []⟩).map fun m =>
    (mux.route m.method m.url, m.method, m.url.path, m.body)

theorem lands_of_landing {method method' : String} {path path' body' : Bytes} {h : Handler}
    (hl : landing method path = some (.handler h, method', path', body')) :
    Lands method path [] h method' path' body' := by
  obtain ⟨m, hm, he⟩ := Option.map_eq_some_iff.1 hl
  obtain ⟨url, hurl, hland⟩ := Option.bind_eq_some_iff.1 hm
  obtain ⟨hroute, hrest⟩ := Prod.mk.inj he
  obtain ⟨hmethod, hrest⟩ := Prod.mk.inj hrest
  obtain ⟨hpath, hbody⟩ := Prod.mk.inj hrest
  exact ⟨url, m, hurl, hland, hroute, hmethod, hpath, hbody⟩

theorem missed_of_landing {method : String} {path : Bytes}
    (hl : (landing method path).map (·.1) = some .notFound) : Missed method path [] := by
  obtain ⟨x, hx, he⟩ := Option.map_eq_some_iff.1 hl
  obtain ⟨m, hm, rfl⟩ := Option.map_eq_some_iff.1 hx
  obtain ⟨url, hurl, hland⟩ := Option.bind_eq_some_iff.1 hm
  exact ⟨url, m, hurl, hland, he⟩

/-! ## Ids that are hashes -/

theorem slash_notMem_of_digest {id : Bytes} {h : Hash} (hid : digest id = .ok h) : slash ∉ id := by
  obtain ⟨pre, digits, post, hpre, hpost, -, hdigits, hvalue, -⟩ :=
    Vault.Paths.normalizeHash_iff.1 (digest_eq_ok.1 hid)
  rw [hvalue]
  intro hmem
  obtain ⟨c, hc, hb⟩ := List.mem_flatMap.1 hmem
  have hchar : c = '/' := by
    rcases Runes.utf8EncodeChar_cases c with hsize | habove
    · rw [String.utf8EncodeChar_eq_singleton hsize, List.mem_singleton] at hb
      have hsame : Runes.encode [c] = Runes.encode ['/'] := by
        rw [Runes.encode_singleton, String.utf8EncodeChar_eq_singleton hsize, ← hb]
        rfl
      exact List.singleton_inj.1 (Runes.encode_injective hsame)
    · exact absurd (habove _ hb) (by decide)
  subst hchar
  rcases List.mem_append.1 hc with hc | hc
  · rcases List.mem_append.1 hc with hc | hc
    · exact absurd (hpre _ hc) (by decide)
    · exact absurd (hdigits _ hc) (by decide)
  · exact absurd (hpost _ hc) (by decide)

theorem callStore_slash {α : Type} {fault : Option Vault.Error} {id : Bytes}
    {call : Hash → Except Vault.Error α} (h : slash ∈ id) :
    (callStore fault id call).toOption = none := by
  unfold callStore
  cases hid : digest id with
  | error e => rfl
  | ok hash => exact absurd h (slash_notMem_of_digest hid)

theorem callStore_odd {α : Type} {fault : Option Vault.Error} {id : Bytes}
    {call : Hash → Except Vault.Error α} (h : id = [] ∨ id = [dot] ∨ id = [dot, dot]) :
    (callStore fault id call).toOption = none := by
  have hdigest : digest id = .error .invalidHash := by
    rcases h with rfl | rfl | rfl <;> decide
  unfold callStore
  rw [hdigest]
  rfl

/-! ## What the handlers answer -/

theorem trimPrefix_append (head tail : Bytes) : trimPrefix (head ++ tail) head = tail := by
  rw [trimPrefix, if_pos (List.prefix_append _ _), List.drop_left]

theorem trimSuffix_append (s tail : Bytes) : Vault.Paths.trimSuffix (s ++ tail) tail = s := by
  rw [Vault.Paths.trimSuffix, if_pos (List.suffix_append _ _), List.length_append,
    Nat.add_sub_cancel, List.take_left]

theorem statusCodeFromError_ge (e : Vault.Error) : 400 ≤ statusCodeFromError e := by
  unfold statusCodeFromError
  split <;> decide

/-- An answer with the status and the body of a result, or with another status and no effect. -/
def Answers {α : Type} (result : Option α) (status : Nat) (body : α → Body) (after : α → Server)
    (s : Server) (x : Response × Server) : Prop :=
  (∃ a, result = some a ∧ x = (⟨status, body a⟩, after a)) ∨
    (result = none ∧ x.1.status ≠ status ∧ x.2 = s)

theorem Answers.receive {α β : Type} {result : Option α} {status : Nat} {body : α → Body}
    {after : α → Server} {x : Response × Server} (h : Answers result status body after s x)
    (decode : Body → Option β) (f : α → β) (hdecode : ∀ a, decode (body a) = some (f a)) :
    (receive status decode (.ok x.1, x.2)).1.toOption = result.map f ∧
      (receive status decode (.ok x.1, x.2)).2 = result.elim s after := by
  unfold VaultClient.receive
  rcases h with ⟨a, rfl, rfl⟩ | ⟨rfl, hstatus, hs⟩
  · simp only [ne_eq, not_true_eq_false, if_false, hdecode]
    exact ⟨rfl, rfl⟩
  · simp only [ne_eq, hstatus, not_false_eq_true, if_true]
    exact ⟨rfl, hs⟩

theorem Answers.other {α : Type} {status status' : Nat} {body : α → Body} {after : α → Server}
    {body' : Body} (h : status' ≠ status) :
    Answers none status body after s (⟨status', body'⟩, s) :=
  .inr ⟨rfl, h, rfl⟩

theorem Answers.refused {α : Type} {status : Nat} {body : α → Body} {after : α → Server}
    {r : Request} (hstatus : status < 400) (hmethod : isDestructiveMethod r.method = false) :
    Answers none status body after s (refuseMethod cfg s r) := by
  have hrefuse : refuseMethod cfg s r = (methodNotAllowed, s) := by
    rw [refuseMethod, hmethod, if_neg Bool.false_ne_true]
  rw [hrefuse]
  exact .other (by omega)

section
variable {r : Request} {id : Bytes}

theorem slash_of_operationOf {op : Bool × Bytes} (h : operationOf id = some op) : slash ∈ id := by
  have hmem : ∀ operation : String, bytes ("/" ++ operation) <:+ id → slash ∈ id := by
    intro operation hsuffix
    refine hsuffix.subset ?_
    rw [Vault.Paths.bytes_append]
    exact List.mem_append_left _ (by decide)
  unfold operationOf at h
  dsimp only at h
  split at h
  · next hnamed =>
    split at hnamed
    · next hsuffix => exact hmem _ hsuffix
    · cases hnamed
  · next hnamed =>
    split at hnamed
    · next hsuffix => exact hmem _ hsuffix
    · cases hnamed
  · cases h

theorem handleManifest_get (hget : r.method = "GET")
    (hpath : r.url.path = bytes "/internal/v1/manifests/" ++ id) :
    Answers (callStore r.fault id (Vault.getManifest s.disk)).toOption 200 .manifest (fun _ => s) s
      (handleManifest cfg s r) := by
  have hdestructive : isDestructiveMethod r.method = false := by rw [hget]; decide
  unfold handleManifest
  rw [hpath, trimPrefix_append]
  dsimp only
  cases hop : operationOf id with
  | some op =>
    rw [callStore_slash (slash_of_operationOf hop)]
    dsimp only
    unfold handleLifecycle
    split
    · exact .other (by decide)
    · rw [if_pos (by rw [hget]; decide)]
      exact .refused (by decide) hdestructive
  | none =>
    dsimp only
    rw [if_neg (not_not.2 hget)]
    split
    · next hnil =>
      rw [callStore_odd (.inl hnil)]
      exact .other (by decide)
    · cases hcall : callStore r.fault id (Vault.getManifest s.disk) with
      | error e =>
        have hstatus := statusCodeFromError_ge e
        exact .other (by omega)
      | ok record => exact .inl ⟨record, rfl, rfl⟩

theorem handleReadProxyObject_get (hget : r.method = "GET")
    (hpath : r.url.path = bytes "/internal/v1/read-proxy/objects/" ++ id) :
    Answers (callStore r.fault id (Vault.openObject blake3 cfg.strictDownloadVerify
        cfg.strictVerifyMaxBytes s.disk)).toOption 200 (.object id) (fun _ => s) s
      (handleReadProxyObject cfg s r blake3) := by
  unfold handleReadProxyObject serveReadProxyObject
  rw [if_neg (not_not.2 hget), hpath, trimPrefix_append]
  dsimp only
  split
  · next hnil =>
    rw [callStore_odd (.inl hnil)]
    exact .other (by decide)
  · cases hcall : callStore r.fault id (Vault.openObject blake3 cfg.strictDownloadVerify
        cfg.strictVerifyMaxBytes s.disk) with
    | error e =>
      have hstatus := statusCodeFromError_ge e
      exact .other (by omega)
    | ok body => exact .inl ⟨body, rfl, rfl⟩

theorem handleChunkStatus_get (hget : r.method = "GET")
    (hpath : r.url.path = bytes "/internal/v1/chunks/" ++ (id ++ bytes "/status")) :
    Answers (callStore r.fault (trimSlashes id) fun h => .ok (Vault.getChunk s.disk h)).toOption
      200 (.chunk (trimSlashes id)) (fun _ => s) s (handleChunkStatus cfg s r) := by
  unfold handleChunkStatus
  rw [if_neg (not_not.2 hget), hpath, trimPrefix_append]
  dsimp only
  rw [if_neg (not_not.2 (List.suffix_append _ _)), trimSuffix_append]
  split
  · next hnil =>
    rw [callStore_odd (.inl hnil)]
    exact .other (by decide)
  · cases hcall : callStore r.fault (trimSlashes id)
        fun h => .ok (Vault.getChunk s.disk h) with
    | error e =>
      have hstatus := statusCodeFromError_ge e
      exact .other (by omega)
    | ok record => exact .inl ⟨record, rfl, rfl⟩

theorem handleChunkStatus_odd {α : Type} (body : α → Body) (hget : r.method = "GET")
    (hpath : r.url.path = bytes "/internal/v1/chunks/" ++ bytes "status") :
    Answers none 200 body (fun _ => s) s (handleChunkStatus cfg s r) := by
  unfold handleChunkStatus
  rw [if_neg (not_not.2 hget), hpath, trimPrefix_append]
  dsimp only
  rw [if_pos (by decide)]
  exact .other (by decide)

/-- A destructive method is forbidden, whatever the path names; only an operation without an id is
refused before its method is looked at. -/
theorem handleManifest_destructive (cfg : Config) (s : Server)
    (hdestructive : isDestructiveMethod r.method = true)
    (hpath : r.url.path = bytes "/internal/v1/manifests/" ++ id)
    (hid : ∀ retired, operationOf id ≠ some (retired, [])) :
    handleManifest cfg s r = writeForbiddenOperation cfg s r := by
  have hrefuse : refuseMethod cfg s r = writeForbiddenOperation cfg s r := if_pos hdestructive
  have hne : ∀ method : String, isDestructiveMethod method = false → r.method ≠ method := by
    intro method hmethod he
    rw [he, hmethod] at hdestructive
    cases hdestructive
  unfold handleManifest
  rw [hpath, trimPrefix_append]
  dsimp only
  split
  · next retired manifestID hop =>
    unfold handleLifecycle
    rw [if_neg fun hnil : manifestID = [] => hid retired (hnil ▸ hop),
      if_pos (hne "POST" (by decide)), hrefuse]
  · rw [if_pos (hne "GET" (by decide)), hrefuse]

/-- The two operations, by their flag. -/
def operationName (retired : Bool) : String := if retired then "retire" else "retain"

/-- The path that a dot segment leaves of an operation's. -/
theorem handleManifest_odd (cfg : Config) (s : Server) {retired : Bool} (hget : r.method = "GET")
    (hpath : r.url.path = bytes "/internal/v1/manifests/" ++ bytes (operationName retired)) :
    Answers none 200 .manifest (fun _ => s) s (handleManifest cfg s r) := by
  have hdigest : digest (bytes (operationName retired)) = .error .invalidHash := by
    cases retired <;> decide
  have hnone : (callStore r.fault (bytes (operationName retired))
      (Vault.getManifest s.disk)).toOption = none := by
    unfold callStore
    rw [hdigest]
    rfl
  rw [← hnone]
  exact handleManifest_get hget hpath

theorem operationOf_named (id : Bytes) (retired : Bool) :
    operationOf (id ++ bytes ("/" ++ operationName retired)) =
      some (retired, Vault.Paths.trimSuffix id (bytes "/")) := by
  unfold operationOf
  dsimp only
  cases retired with
  | true =>
    rw [operationName, if_pos rfl, if_pos (List.suffix_append _ _), trimSuffix_append]
  | false =>
    rw [operationName, if_neg Bool.false_ne_true, if_neg ?_, if_pos (List.suffix_append _ _),
      trimSuffix_append]
    intro hsuffix
    have hsame := List.suffix_of_suffix_length_le hsuffix
      (List.suffix_append id (bytes ("/" ++ "retain"))) (by decide)
    revert hsame
    decide

theorem handleManifest_post {retired : Bool} (hpost : r.method = "POST")
    (hpath : r.url.path =
      bytes "/internal/v1/manifests/" ++ (id ++ bytes ("/" ++ operationName retired))) :
    Answers (callStore r.fault (Vault.Paths.trimSuffix id (bytes "/")) fun h =>
        Vault.updateManifestLifecycle s.disk h retired r.now).toOption 200
      (fun _ => .lifecycle (if retired then "retired" else "retained")
        (Vault.Paths.trimSuffix id (bytes "/"))) (fun disk => { s with disk }) s
      (handleManifest cfg s r) := by
  unfold handleManifest
  rw [hpath, trimPrefix_append]
  dsimp only
  rw [operationOf_named]
  dsimp only
  unfold handleLifecycle
  by_cases hnil : Vault.Paths.trimSuffix id (bytes "/") = []
  · rw [callStore_odd (.inl hnil), if_pos hnil]
    exact .other (by decide)
  · rw [if_neg hnil, if_neg (not_not.2 hpost)]
    cases hcall : callStore r.fault (Vault.Paths.trimSuffix id (bytes "/")) fun h =>
        Vault.updateManifestLifecycle s.disk h retired r.now with
    | error e =>
      have hstatus := statusCodeFromError_ge e
      exact .other (by omega)
    | ok disk => exact .inl ⟨disk, rfl, rfl⟩

end

/-! ## The Store's calls -/

/-- The operation on a manifest, with the id as the server reads it. -/
def lifecycleDirect (ctx : Context) (d : Vault.Disk) (id : Bytes) (retired : Bool) :
    Option Reply × Vault.Disk :=
  match callStore ctx.fault (Vault.Paths.trimSuffix id (bytes "/")) fun h =>
      Vault.updateManifestLifecycle d h retired ctx.now with
  | .error _ => (none, d)
  | .ok d => (some .done, d)

section
variable (blake3 : Bytes → Hash)

/-- The call without the socket. -/
def Operation.direct (cfg : Config) (ctx : Context) (d : Vault.Disk) :
    Operation → Option Reply × Vault.Disk
  | .upload fileName content =>
    if validHeaderFieldValue fileName then
      let (result, d) := Vault.processUpload blake3 ctx.env cfg.chunking
        (Vault.trimSpace fileName) content d
      (result.toOption.map .committed, d)
    else (none, d)
  | .getManifest id =>
    ((callStore ctx.fault id (Vault.getManifest d)).toOption.map .manifest, d)
  | .retireManifest id => lifecycleDirect ctx d id true
  | .retainManifest id => lifecycleDirect ctx d id false
  | .downloadObject id =>
    ((callStore ctx.fault id (Vault.openObject blake3 cfg.strictDownloadVerify
      cfg.strictVerifyMaxBytes d)).toOption.map .object, d)
  | .getChunkStatus hash =>
    ((callStore ctx.fault (trimSlashes hash) fun h =>
      .ok (Vault.getChunk d h)).toOption.map .chunk, d)

/-- The Store and the configuration it runs under. -/
structure Direct where
  cfg : Config
  disk : Vault.Disk

/-- A step, with the Store's calls only. -/
def Step.direct (y : Direct) : Step → Option Reply × Direct
  | .call ctx op =>
    if y.cfg.admits ctx.uid then
      let (reply, disk) := op.direct blake3 y.cfg ctx y.disk
      (reply, { y with disk })
    else (none, y)
  | .event (.cleanup now) =>
    (none, { y with disk := (Vault.cleanupExpiredUploadSessions y.disk now).2 })
  | .event (.restart cfg) => (none, { y with cfg })
  | .event e => (none, { y with disk := (e.call y.cfg).elim y.disk (Vault.Call.run blake3 y.disk) })

end

/-! ## The client's calls -/

section
variable (hadmits : cfg.admits ctx.uid = true)
include hadmits

theorem receive_missed {α : Type} {status : Nat} {decode : Body → Option α} {method : String}
    {path body : Bytes} (hmissed : Missed method path body) (hstatus : status ≠ 404) (s : Server) :
    (receive status decode (exchange cfg blake3 ctx s .none method path body)).1.toOption = none ∧
      (receive status decode (exchange cfg blake3 ctx s .none method path body)).2 = s := by
  rw [exchange_missed hadmits (by decide) hmissed]
  unfold receive
  simp only [ne_eq, Ne.symm hstatus, not_false_eq_true, if_true]
  exact ⟨rfl, trivial⟩

theorem receive_read {α : Type} {result : Option α} {body : α → Body} {decode : Body → Option α}
    {h : Handler} {text text' : Bytes}
    (hlands : Lands "GET" text [] h "GET" text' [])
    (hanswers : ∀ r : Request, r.method = "GET" → r.url.path = text' → r.fault = ctx.fault →
      Answers result 200 body (fun _ => s) s (handle cfg s r blake3 h))
    (hdecode : ∀ a, decode (body a) = some a) :
    (receive 200 decode (exchange cfg blake3 ctx s .none "GET" text [])).1.toOption = result ∧
      (receive 200 decode (exchange cfg blake3 ctx s .none "GET" text [])).2 = s := by
  have hheaders : (validHeaderFieldValue Headers.none.fileName &&
    validHeaderFieldValue Headers.none.runID) = true := by decide
  obtain ⟨url, hurl, hexchange⟩ := exchange_lands hadmits blake3 .none hheaders hlands
  obtain ⟨hresult, hafter⟩ := (hanswers (request ctx .none ⟨"GET", url, []⟩) rfl hurl rfl).receive
    decode (fun a => a) hdecode
  rw [hexchange]
  refine ⟨hresult.trans Option.map_id', hafter.trans ?_⟩
  cases result <;> rfl

/-- A call that reads what an id names is the Store's, for every id. -/
theorem receive_named {α : Type} {call : Hash → Except Vault.Error α} {body : Bytes → α → Body}
    {decode : Body → Option α} {h : Handler} {text : Bytes}
    (hlands : ∀ id, Named id → Lands "GET" (text ++ pathEscape id) [] h "GET" (text ++ id) [])
    (hempty : Lands "GET" (text ++ pathEscape []) [] h "GET" (text ++ []) [])
    (hdot : Lands "GET" (text ++ pathEscape [dot]) [] h "GET" (text ++ []) [])
    (hdotdot : Missed "GET" (text ++ pathEscape [dot, dot]) [])
    (hanswers : ∀ (r : Request) (id : Bytes), r.method = "GET" → r.url.path = text ++ id →
      Answers (callStore r.fault id call).toOption 200 (body id) (fun _ => s) s
        (handle cfg s r blake3 h))
    (hdecode : ∀ id a, decode (body id a) = some a) (id : Bytes) :
    (receive 200 decode
        (exchange cfg blake3 ctx s .none "GET" (text ++ pathEscape id) [])).1.toOption =
        (callStore ctx.fault id call).toOption ∧
      (receive 200 decode
        (exchange cfg blake3 ctx s .none "GET" (text ++ pathEscape id) [])).2 = s := by
  have hread : ∀ {id'}, Lands "GET" (text ++ pathEscape id) [] h "GET" (text ++ id') [] →
      (receive 200 decode
          (exchange cfg blake3 ctx s .none "GET" (text ++ pathEscape id) [])).1.toOption =
          (callStore ctx.fault id' call).toOption ∧
        (receive 200 decode
          (exchange cfg blake3 ctx s .none "GET" (text ++ pathEscape id) [])).2 = s :=
    fun {id'} hl => receive_read hadmits hl
      (fun r hget hpath hfault => hfault ▸ hanswers r id' hget hpath) (hdecode id')
  have hnil : (callStore ctx.fault [] call).toOption = none := callStore_odd (.inl rfl)
  rcases named_or id with hid | rfl | rfl | rfl
  · exact hread (hlands id hid)
  · exact hread hempty
  · rw [callStore_odd (.inr (.inl rfl)), ← hnil]
    exact hread hdot
  · rw [callStore_odd (.inr (.inr rfl))]
    exact receive_missed hadmits hdotdot (by decide) s

variable (blake3)

theorem getManifest_eq (id : Bytes) (s : Server) :
    (getManifest cfg blake3 ctx s id).1.toOption =
        (callStore ctx.fault id (Vault.getManifest s.disk)).toOption ∧
      (getManifest cfg blake3 ctx s id).2 = s :=
  receive_named hadmits (fun _ hid => lands_manifest hid _ _)
    (lands_of_landing (by decide +kernel)) (lands_of_landing (by decide +kernel))
    (missed_of_landing (by decide +kernel)) (fun _ _ => handleManifest_get) (fun _ _ => rfl) id

theorem downloadObject_eq (id : Bytes) (s : Server) :
    (downloadObject cfg blake3 ctx s id).1.toOption =
        (callStore ctx.fault id (Vault.openObject blake3 cfg.strictDownloadVerify
          cfg.strictVerifyMaxBytes s.disk)).toOption ∧
      (downloadObject cfg blake3 ctx s id).2 = s :=
  receive_named hadmits (fun _ hid => lands_object hid _ _)
    (lands_of_landing (by decide +kernel)) (lands_of_landing (by decide +kernel))
    (missed_of_landing (by decide +kernel)) (fun _ _ => handleReadProxyObject_get) (fun _ _ => rfl)
    id

theorem getChunkStatus_eq (id : Bytes) (s : Server) :
    (getChunkStatus cfg blake3 ctx s id).1.toOption =
        (callStore ctx.fault (trimSlashes id) fun h => .ok (Vault.getChunk s.disk h)).toOption ∧
      (getChunkStatus cfg blake3 ctx s id).2 = s := by
  rcases named_or id with hid | hodd
  · exact receive_read hadmits (lands_chunk hid _ _) (fun r hget hpath hfault =>
      hfault ▸ handleChunkStatus_get hget (by rw [hpath, List.append_assoc])) fun _ => rfl
  · have htrim : trimSlashes id = id := by rcases hodd with rfl | rfl | rfl <;> decide
    rw [htrim, callStore_odd hodd]
    have hread : Lands "GET" (bytes "/internal/v1/chunks/" ++ pathEscape id ++ bytes "/status") []
        .chunkStatus "GET" (bytes "/internal/v1/chunks/" ++ bytes "status") [] →
        (getChunkStatus cfg blake3 ctx s id).1.toOption = none ∧
          (getChunkStatus cfg blake3 ctx s id).2 = s :=
      fun hl => receive_read hadmits hl
        (fun _ hget hpath _ => handleChunkStatus_odd (.chunk id) hget hpath) fun _ => rfl
    rcases hodd with rfl | rfl | rfl
    · exact hread (lands_of_landing (by decide +kernel))
    · exact hread (lands_of_landing (by decide +kernel))
    · exact receive_missed hadmits (missed_of_landing (by decide +kernel)) (by decide) s

theorem updateManifestLifecycle_eq (id : Bytes) (retired : Bool) (s : Server) :
    (updateManifestLifecycle cfg blake3 ctx s id (operationName retired)).1.toOption =
        (callStore ctx.fault (Vault.Paths.trimSuffix id (bytes "/")) fun h =>
          Vault.updateManifestLifecycle s.disk h retired ctx.now).toOption.map (fun _ => ()) ∧
      (updateManifestLifecycle cfg blake3 ctx s id (operationName retired)).2 =
        (callStore ctx.fault (Vault.Paths.trimSuffix id (bytes "/")) fun h =>
          Vault.updateManifestLifecycle s.disk h retired ctx.now).toOption.elim s
            fun disk => { s with disk } := by
  have hop : operationName retired = "retire" ∨ operationName retired = "retain" := by
    cases retired <;> decide
  have hheaders : (validHeaderFieldValue Headers.none.fileName &&
    validHeaderFieldValue Headers.none.runID) = true := by decide
  unfold updateManifestLifecycle
  rcases named_or id with hid | hodd
  · obtain ⟨url, hurl, hexchange⟩ := exchange_lands hadmits blake3 .none hheaders
      (lands_operation hid "POST" [] hop)
    rw [hexchange]
    exact (handleManifest_post (r := request ctx .none ⟨"POST", url, []⟩) rfl
      (by rw [← List.append_assoc]; exact hurl)).receive _ (fun _ => ()) fun _ => rfl
  · -- The redirect turns the call into a GET of the record that the operation's name would have.
    have htrim : Vault.Paths.trimSuffix id (bytes "/") = id := by
      rcases hodd with rfl | rfl | rfl <;> decide
    rw [htrim, callStore_odd hodd]
    have hread : Lands "POST" (bytes "/internal/v1/manifests/" ++ pathEscape id ++
          bytes ("/" ++ operationName retired)) [] .manifest "GET"
          (bytes "/internal/v1/manifests/" ++ bytes (operationName retired)) [] →
        (receive 200 (fun _ => some ()) (exchange cfg blake3 ctx s .none "POST"
          (bytes "/internal/v1/manifests/" ++ pathEscape id ++
            bytes ("/" ++ operationName retired)) [])).1.toOption = none ∧
          (receive 200 (fun _ => some ()) (exchange cfg blake3 ctx s .none "POST"
            (bytes "/internal/v1/manifests/" ++ pathEscape id ++
              bytes ("/" ++ operationName retired)) [])).2 = s := by
      intro hl
      obtain ⟨url, hurl, hexchange⟩ := exchange_lands hadmits blake3 .none hheaders hl
      have hget := handleManifest_odd (r := request ctx .none ⟨"GET", url, []⟩) cfg s rfl hurl
      rw [hexchange]
      exact hget.receive _ (fun _ => ()) fun _ => rfl
    rcases hodd with rfl | rfl | rfl
    · exact hread (lands_of_landing (by cases retired <;> decide +kernel))
    · exact hread (lands_of_landing (by cases retired <;> decide +kernel))
    · exact receive_missed hadmits (missed_of_landing (by cases retired <;> decide +kernel))
        (by decide) s

omit hadmits in
variable (cfg ctx) in
theorem upload_invalid {fileName : String} (h : validHeaderFieldValue fileName = false)
    (content : Bytes) (s : Server) :
    (upload cfg blake3 ctx s fileName content).1.toOption = none ∧
      (upload cfg blake3 ctx s fileName content).2 = s := by
  unfold upload exchange
  split
  · exact ⟨rfl, rfl⟩
  · rw [h, Bool.false_and, if_pos Bool.false_ne_true]
    exact ⟨rfl, rfl⟩

theorem upload_eq {fileName : String} (hvalid : validHeaderFieldValue fileName = true)
    (content : Bytes) (s : Server) :
    (upload cfg blake3 ctx s fileName content).1.toOption = (Vault.processUpload blake3 ctx.env
        cfg.chunking (Vault.trimSpace fileName) content s.disk).1.toOption ∧
      (upload cfg blake3 ctx s fileName content).2.disk = (Vault.processUpload blake3 ctx.env
        cfg.chunking (Vault.trimSpace fileName) content s.disk).2 := by
  obtain ⟨url, -, hexchange⟩ := exchange_lands hadmits blake3 ⟨fileName, ""⟩
    (by rw [hvalid]; rfl) (lands_upload content)
  unfold upload
  rw [hexchange]
  dsimp only [handle, handleUpload, request]
  rw [if_neg (not_not.2 rfl)]
  split
  · next e disk he =>
    have hstatus := statusCodeFromError_ge e
    rw [receive, if_pos (show statusCodeFromError e ≠ 201 by omega), he]
    exact ⟨rfl, rfl⟩
  · next he =>
    rw [he]
    exact ⟨rfl, rfl⟩

/-- The call of a manifest's operation, for both. -/
theorem lifecycle_eq {operation : String} {retired : Bool} (hop : operation = operationName retired)
    (id : Bytes) (s : Server) :
    ((updateManifestLifecycle cfg blake3 ctx s id operation).1.toOption.map fun _ => Reply.done,
      (updateManifestLifecycle cfg blake3 ctx s id operation).2.disk) =
        lifecycleDirect ctx s.disk id retired := by
  obtain ⟨hreply, hafter⟩ := updateManifestLifecycle_eq blake3 hadmits id retired s
  rw [hop, hreply, hafter, lifecycleDirect]
  cases callStore ctx.fault (Vault.Paths.trimSuffix id (bytes "/")) fun h =>
    Vault.updateManifestLifecycle s.disk h retired ctx.now <;> rfl

/-- **A call through the socket is the Store's call.** -/
theorem send_admitted (op : Operation) (s : Server) :
    ((op.send blake3 cfg ctx s).1, (op.send blake3 cfg ctx s).2.disk) =
      op.direct blake3 cfg ctx s.disk := by
  cases op with
  | upload fileName content =>
    rw [Operation.direct]
    dsimp only [Operation.send]
    cases hvalid : validHeaderFieldValue fileName with
    | false =>
      obtain ⟨hreply, hafter⟩ := upload_invalid cfg blake3 ctx hvalid content s
      rw [hreply, hafter]
      rfl
    | true =>
      obtain ⟨hreply, hafter⟩ := upload_eq blake3 hadmits hvalid content s
      rw [hreply, hafter]
      rfl
  | getManifest id =>
    obtain ⟨hreply, hafter⟩ := getManifest_eq blake3 hadmits id s
    dsimp only [Operation.send]
    rw [hreply, hafter]
    rfl
  | retireManifest id =>
    have hdone := lifecycle_eq blake3 hadmits (show "retire" = operationName true by decide) id s
    dsimp only [Operation.send, retireManifest]
    rw [hdone, Operation.direct]
  | retainManifest id =>
    have hdone := lifecycle_eq blake3 hadmits (show "retain" = operationName false by decide) id s
    dsimp only [Operation.send, retainManifest]
    rw [hdone, Operation.direct]
  | downloadObject id =>
    obtain ⟨hreply, hafter⟩ := downloadObject_eq blake3 hadmits id s
    dsimp only [Operation.send]
    rw [hreply, hafter]
    rfl
  | getChunkStatus hash =>
    obtain ⟨hreply, hafter⟩ := getChunkStatus_eq blake3 hadmits hash s
    dsimp only [Operation.send]
    rw [hreply, hafter]
    rfl

end

/-! ## Attempts -/

/-- **A destructive attempt is blocked**, with the event of the Vault. -/
theorem attempt_blocked (hadmits : cfg.admits ctx.uid = true)
    (hrunID : validHeaderFieldValue ctx.runID = true) {method : String}
    (hdestructive : isDestructiveMethod method = true) {id : Bytes} (hid : Named id)
    (hop : ∀ retired, operationOf id ≠ some (retired, [])) (body : Bytes) :
    ∃ r : Request, r.method = method ∧ r.url.path = bytes "/internal/v1/manifests/" ++ id ∧
      r.runID = ctx.runID ∧ r.peerUID = ctx.uid ∧ r.now = ctx.now ∧
      ∀ s, attemptManifestMutation cfg blake3 ctx s method id body =
        (.ok (writeForbiddenOperation cfg s r).1, (writeForbiddenOperation cfg s r).2) := by
  obtain ⟨url, hurl, hexchange⟩ := exchange_lands hadmits blake3 ⟨"", ctx.runID⟩
    (by rw [hrunID]; rfl) (lands_manifest hid method body)
  refine ⟨request ctx ⟨"", ctx.runID⟩ ⟨method, url, body⟩, rfl, hurl, rfl, rfl, rfl, fun s => ?_⟩
  unfold attemptManifestMutation
  rw [hexchange]
  dsimp only [handle]
  rw [handleManifest_destructive cfg s hdestructive hurl hop]

/-! ## Calls that are refused -/

section
variable (hrefused : cfg.admits ctx.uid = false)
include hrefused

variable (blake3) (headers : Headers) (method : String) (path body : Bytes)

theorem exchange_refused (s : Server) :
    (∃ e, exchange cfg blake3 ctx s headers method path body = (.error e, s)) ∨
      ∃ code message, exchange cfg blake3 ctx s headers method path body =
        (.ok ⟨403, .denied code message none⟩, s) := by
  unfold exchange
  split
  · exact .inl ⟨_, rfl⟩
  · split
    · exact .inl ⟨_, rfl⟩
    · next url _ _ =>
      obtain ⟨code, message, hserve⟩ :=
        serve_refused cfg s (request ctx headers ⟨method, url, body⟩) blake3 hrefused
      refine .inr ⟨code, message, ?_⟩
      rw [follow, hserve]

theorem receive_refused {α : Type} {status : Nat} (decode : Body → Option α)
    (hstatus : status ≠ 403) (s : Server) :
    (receive status decode (exchange cfg blake3 ctx s headers method path body)).1.toOption =
        none ∧
      (receive status decode (exchange cfg blake3 ctx s headers method path body)).2 = s := by
  obtain ⟨e, he⟩ | ⟨code, message, he⟩ :=
    exchange_refused blake3 hrefused headers method path body s
  · rw [he]
    exact ⟨rfl, rfl⟩
  · rw [he, receive, if_pos hstatus.symm]
    exact ⟨rfl, rfl⟩

omit headers method path body in
theorem upload_refused (fileName : String) (content : Bytes) (s : Server) :
    (upload cfg blake3 ctx s fileName content).1.toOption = none :=
  (receive_refused blake3 hrefused _ _ _ _ _ (by decide) s).1

omit headers method path body in
theorem send_refused (op : Operation) (s : Server) : op.send blake3 cfg ctx s = (none, s) := by
  have hreceive : ∀ {α : Type} {headers : Headers} {status : Nat} {decode : Body → Option α}
      {method : String} {path body : Bytes} (reply : α → Reply), status ≠ 403 →
      ((receive status decode (exchange cfg blake3 ctx s headers method path body)).1.toOption.map
          reply,
        (receive status decode (exchange cfg blake3 ctx s headers method path body)).2) =
        (none, s) := by
    intro α headers status decode method path body reply hstatus
    obtain ⟨hreply, hafter⟩ :=
      receive_refused blake3 hrefused headers method path body decode hstatus s
    rw [hreply, hafter]
    rfl
  cases op with
  | upload fileName content =>
    dsimp only [Operation.send, upload]
    exact hreceive .committed (by decide)
  | getManifest id =>
    dsimp only [Operation.send, getManifest]
    exact hreceive .manifest (by decide)
  | retireManifest id =>
    dsimp only [Operation.send, retireManifest, updateManifestLifecycle]
    exact hreceive (fun _ => .done) (by decide)
  | retainManifest id =>
    dsimp only [Operation.send, retainManifest, updateManifestLifecycle]
    exact hreceive (fun _ => .done) (by decide)
  | downloadObject id =>
    dsimp only [Operation.send, downloadObject]
    exact hreceive .object (by decide)
  | getChunkStatus hash =>
    dsimp only [Operation.send, getChunkStatus]
    exact hreceive .chunk (by decide)

end

/-! ## Runs -/

/-- The process has the Store's disk and its configuration. -/
def SameStore (y : Vault.Uds.Process) (z : Direct) : Prop := z = ⟨y.cfg, y.disk⟩

theorem send_same (blake3 : Bytes → Hash) {y : Vault.Uds.Process} {z : Direct} (step : Step)
    (h : SameStore y z) :
    (step.send blake3 y).1 = (step.direct blake3 z).1 ∧
      SameStore (step.send blake3 y).2 (step.direct blake3 z).2 := by
  subst h
  cases step with
  | call ctx op =>
    dsimp only [Step.send, Step.direct]
    cases hadmits : y.cfg.admits ctx.uid with
    | true =>
      rw [if_pos rfl, ← send_admitted blake3 hadmits op y.toServer]
      exact ⟨rfl, rfl⟩
    | false =>
      rw [if_neg Bool.false_ne_true, send_refused blake3 hadmits op y.toServer]
      exact ⟨rfl, rfl⟩
  | event e =>
    cases e with
    | request r =>
      refine ⟨rfl, ?_⟩
      dsimp only [SameStore, Step.send, Step.direct, Vault.Uds.Process.next, Vault.Uds.Event.call]
      rw [serve_disk]
    | sweep env grace => exact ⟨rfl, rfl⟩
    | cleanup now => exact ⟨rfl, rfl⟩
    | restart cfg => exact ⟨rfl, rfl⟩

/-- **The socket is transparent.** Whatever calls of the client, foreign requests, sweeps, cleanups
and restarts come one after another, each call returns what the Store answers to it directly, and
leaves the disk as the Store does. -/
theorem client_transparent (blake3 : Bytes → Hash) (y : Vault.Uds.Process) (steps : List Step) :
    (Runs.outputs (Step.send blake3) y steps).1 =
        (Runs.outputs (Step.direct blake3) ⟨y.cfg, y.disk⟩ steps).1 ∧
      (Runs.outputs (Step.send blake3) y steps).2.disk =
        (Runs.outputs (Step.direct blake3) ⟨y.cfg, y.disk⟩ steps).2.disk := by
  obtain ⟨hreplies, hlast⟩ : _ ∧ SameStore _ _ :=
    Runs.outputs_simulate (fun _ _ step h => send_same blake3 step h) rfl
  exact ⟨hreplies, by rw [hlast]⟩

end HashBox.Api.VaultClient
