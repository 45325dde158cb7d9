import HashBox.Vault.Server
import HashBox.Vault.Proof.Manifests
import HashBox.Vault.Proof.Retain
import HashBox.Vault.Proof.Texts

/-!
# What the Vault's server does to the disk

`Request.call` is the call of the Store that a request comes to: none, unless its peer is allowed,
its method is `POST` and its path names the uploads or an operation on a manifest. A request leaves
the disk as this call does (`serve_disk`), so no other request changes anything.

`Disk.Holds` says that an object is active and complete. An upload that is answered with 201 makes
it so, every other event of the process keeps it (`Process.holds_run`), and while it holds both
object endpoints answer with the bytes that were uploaded (`committed_stays_readable`).
-/

namespace HashBox.Vault

open Paths (bytes)

variable {blake3 : Bytes → Hash} {chunking : FastCdc.Config} {S : Set Bytes} {d d' : Disk}

/-! ## Objects that are active and complete -/

structure Disk.Holds (blake3 : Bytes → Hash) (chunking : FastCdc.Config) (S : Set Bytes)
    (object : Bytes) (d : Disk) : Prop where
  stored : Stored blake3 {chunking} S d
  manifest : ∃ m, d.manifests.lookup (blake3 object) = some m ∧ m.retired = false ∧ d.backed m

theorem Disk.SameData.grows (hs : d.SameData d') : d.Grows d' :=
  ⟨fun k hk => by rwa [Disk.hasRecord, hs.chunks], fun k hk => by rwa [Disk.hasFile, hs.files]⟩

theorem UploadEnd.grows {object : Bytes} {r : Except Error UploadCommitResult}
    (h : UploadEnd blake3 chunking object d d' r) : d.Grows d' := by
  cases h with
  | failed hs => exact hs.grows
  | committed _ hcom hs _ =>
    have hgrows := commit_grows hcom
    exact ⟨fun k hk => hs.grows.record k (hgrows.record k hk),
      fun k hk => hs.grows.file k (hgrows.file k hk)⟩

/-- Only a sweep takes chunks. -/
theorem Call.run_grows {c : Call} (hc : ∀ env olderThan, c ≠ .collectGarbage env olderThan) :
    d.Grows (c.run blake3 d) := by
  cases c with
  | processUpload cfg env fileName bytes =>
    obtain ⟨d1, hadds, hend⟩ := processUpload_end blake3 env cfg fileName bytes d
    have hgrows := hend.grows
    exact ⟨fun k hk => hgrows.record k (hadds.grows.record k hk),
      fun k hk => hgrows.file k (hadds.grows.file k hk)⟩
  | retireManifest manifestID now =>
    simp only [Call.run, Vault.retireManifest]
    split
    · next h => exact updateManifestLifecycle_grows h
    · exact .refl d
  | retainManifest manifestID now =>
    simp only [Call.run, Vault.retainManifest]
    split
    · next h => exact updateManifestLifecycle_grows h
    · exact .refl d
  | collectGarbage env olderThan => exact absurd rfl (hc env olderThan)

def Disk.Backs (d : Disk) (id : Hash) : Prop :=
  ∃ m, d.manifests.lookup id = some m ∧ d.backed m

theorem Disk.Backs.same {id : Hash} (hb : d.Backs id) (hs : d.SameData d') : d'.Backs id := by
  obtain ⟨m, hm, hb⟩ := hb
  exact ⟨m, hs.manifests ▸ hm, hs.grows.backed hb⟩

/-- **A manifest that is there stays there**, unless a sweep reaches it. -/
theorem Disk.Backs.run (blake3 : Bytes → Hash) {id : Hash} {c : Call} (hb : d.Backs id)
    (hkept : id ∉ c.expires d) : (c.run blake3 d).Backs id := by
  obtain ⟨m, hm, hb⟩ := hb
  have hafter : (c.run blake3 d).backed m := by
    cases c with
    | collectGarbage env olderThan => exact Disk.backed_sweep blake3 hm hb (.inr hkept)
    | _ => exact (Call.run_grows fun _ _ h => by cases h).backed hb
  have hstep := c.run_manifest blake3 d id
  rw [hm] at hstep
  generalize ho : (c.run blake3 d).manifests.lookup id = o at hstep
  cases hstep with
  | same => exact ⟨m, ho, hafter⟩
  | reactivated => exact ⟨_, ho, hafter⟩
  | retired => exact ⟨_, ho, hafter⟩
  | retained => exact ⟨_, ho, hafter⟩

/-- **No call takes a chunk of an active manifest.** -/
theorem Call.run_backed {id : Hash} {m : ManifestRecord} (c : Call)
    (hm : d.manifests.lookup id = some m) (hr : m.retired = false) (hb : d.backed m) :
    (c.run blake3 d).backed m := by
  cases c with
  | collectGarbage env olderThan =>
    exact Disk.backed_sweep blake3 hm hb (.inl hr)
  | _ => exact (Call.run_grows fun _ _ h => by cases h).backed hb

theorem Call.run_active {id : Hash} {m : ManifestRecord} {c : Call}
    (hm : d.manifests.lookup id = some m) (hr : m.retired = false)
    (hc : ∀ now, c ≠ .retireManifest id now) : (c.run blake3 d).manifests.lookup id = some m := by
  have hstep := c.run_manifest blake3 d id
  rw [hm] at hstep
  generalize (c.run blake3 d).manifests.lookup id = o at hstep
  cases hstep with
  | same => rfl
  | reactivated _ _ hret => rw [hr] at hret; cases hret
  | retired hret _ => exact absurd hret (hc _)
  | retained _ hret => rw [hr] at hret; cases hret

theorem Disk.Holds.run {object : Bytes} {c : Call} (hd : d.Holds blake3 chunking S object)
    (hc : c.within {chunking} S) (hne : ∀ now, c ≠ .retireManifest (blake3 object) now) :
    (c.run blake3 d).Holds blake3 chunking S object := by
  obtain ⟨hstored, m, hm, hr, hb⟩ := hd
  exact ⟨hstored.run hc, m, Call.run_active hm hr hne, hr, c.run_backed hm hr hb⟩

theorem Disk.Holds.same {object : Bytes} (hd : d.Holds blake3 chunking S object)
    (hs : d.SameData d') : d'.Holds blake3 chunking S object := by
  obtain ⟨hstored, m, hm, hr, hb⟩ := hd
  exact ⟨hstored.same hs, m, hs.manifests ▸ hm, hr, hs.grows.backed hb⟩

section
variable (hinj : Set.InjOn blake3 S)
include hinj

theorem Stored.describes (hd : Stored blake3 {chunking} S d) {object : Bytes} (hS : object ∈ S)
    {m : ManifestRecord} (hm : d.manifests.lookup (blake3 object) = some m) :
    m.Describes blake3 {chunking} S object := by
  obtain ⟨hv, hid⟩ := hd.valid _ m hm
  obtain ⟨other, hdesc⟩ := hd.object _ m hm
  have heq : other = object :=
    hinj hdesc.mem hS (by rw [← hdesc.fileHash, ← (validateManifest_ok.1 hv).1, hid])
  exact heq ▸ hdesc

/-- **An upload that succeeds leaves its object active and complete**, whatever it found. -/
theorem Disk.Holds.of_upload (hd : Stored blake3 {chunking} S d) {env : UploadEnv}
    {fileName : String} {object : Bytes} {r : UploadCommitResult}
    (hcall : (Call.processUpload chunking env fileName object).within {chunking} S)
    (hup : (processUpload blake3 env chunking fileName object d).1 = .ok r) :
    (processUpload blake3 env chunking fileName object d).2.Holds blake3 chunking S object ∧
      r.manifestID = blake3 object := by
  have hafter := hd.run hcall
  obtain ⟨d1, hadds, hend⟩ := processUpload_end blake3 env chunking fileName object d
  simp only [Call.run] at hafter
  rw [hup] at hend
  generalize (processUpload blake3 env chunking fileName object d).2 = d' at hend hafter ⊢
  cases hend with | committed hp hcom hsame hr =>
  rename_i now d2
  have hactive : d2.active (blake3 object) := (commit_active rfl hcom _).2 (.inr rfl)
  obtain ⟨m, hm, hret⟩ := hactive
  rw [← hsame.manifests] at hm
  refine ⟨⟨hafter, m, hm, hret, fun h hh => ?_⟩, (hr r rfl).1⟩
  -- the record lists the chunks that this upload has written, for there is one configuration
  obtain ⟨cfg, hcfg, hcs, -⟩ := (hafter.describes hinj hcall.2.1 hm).chunks
  rw [hcs, Set.mem_singleton_iff.1 hcfg] at hh
  obtain ⟨b, hbm, rfl⟩ := List.mem_map.1 hh
  exact hsame.grows.present ((commit_grows hcom).present (hp b hbm))

theorem Disk.Holds.openObject {object : Bytes} (hd : d.Holds blake3 chunking S object)
    (hS : object ∈ S) (strictVerify : Bool) (strictVerifyMaxBytes : Int) :
    openObject blake3 strictVerify strictVerifyMaxBytes d (blake3 object) =
      .ok ⟨object.length, object, none⟩ := by
  obtain ⟨hstored, m, hm, hr, hb⟩ := hd
  exact openObject_backed hinj hstored hm (hstored.describes hinj hS hm) (fun h hh => (hb h hh).2)
    strictVerify strictVerifyMaxBytes

end

namespace Uds

/-! ## Ids -/

theorem hashNumber_hexDigits (k n : Nat) :
    hashNumber ((hexDigits k n).map Char.toUInt8) = n % 16 ^ k := by
  have hdigit : ∀ v < 16, ((Paths.hexValue (hexDigit v).toUInt8).getD 0).toNat = v := by decide
  induction k generalizing n with
  | zero => rw [pow_zero, Nat.mod_one]; rfl
  | succ k ih =>
    rw [hexDigits, List.map_append, List.map_singleton, hashNumber, List.foldl_concat,
      ← hashNumber, ih, hdigit _ (Nat.mod_lt _ (by decide)), Nat.pow_succ, Nat.mul_comm (16 ^ k),
      Nat.mod_mul]
    omega

/-- **The key that an id stands for** is the digest whose text it normalizes to. -/
theorem digest_eq_ok {id : Bytes} {h : Hash} :
    digest id = .ok h ↔ Paths.normalizeHash id = .ok (bytes (hex h)) := by
  have hnumber : ∀ h : Hash, BitVec.ofNat 256 (hashNumber (bytes (hex h))) = h := by
    intro h
    have hlt : h.toNat < 16 ^ 64 := by simpa using h.isLt
    rw [Paths.bytes_hex, hashNumber_hexDigits, Nat.mod_eq_of_lt hlt, BitVec.ofNat_toNat,
      BitVec.setWidth_eq]
  unfold digest
  constructor
  · intro hid
    rcases Paths.normalizeHash_cases id with herror | ⟨hash, hok⟩
    · rw [herror] at hid
      cases hid
    · obtain ⟨h', rfl⟩ := Paths.exists_hex (Paths.normalizeHash_iff.1 hok).isHash
      rw [hok] at hid ⊢
      have hh : h' = h := (hnumber h').symm.trans (Except.ok.inj hid)
      rw [hh]
  · intro hid
    rw [hid]
    exact congrArg Except.ok (hnumber h)

/-! ## The calls of requests -/

def Config.admits (cfg : Config) (peerUID : Option UInt32) : Bool :=
  cfg.udsAllowedUIDs.isEmpty || peerUID.any fun uid => decide (uid ∈ cfg.udsAllowedUIDs)

/-- The call on a manifest that a text names. -/
def Request.lifecycleCall (r : Request) (retired : Bool) (manifestID : Bytes) : Option Call :=
  if manifestID = [] then none
  else
    match digest manifestID, r.fault with
    | .ok id, none =>
      some (if retired then .retireManifest id r.now else .retainManifest id r.now)
    | _, _ => none

/-- The call of the Store that the request comes to, of those that may change the disk. -/
def Request.call (cfg : Config) (r : Request) : Option Call :=
  if cfg.admits r.peerUID ∧ r.method = "POST" then
    match mux.route r.method r.url with
    | .handler .upload =>
      some (.processUpload cfg.chunking r.env (trimSpace r.fileName) r.body)
    | .handler .manifest =>
      (operationOf (trimPrefix r.url.path (bytes "/internal/v1/manifests/"))).bind fun op =>
        r.lifecycleCall op.1 op.2
    | _ => none
  else none

section
variable (cfg : Config) (s : Server) (r : Request)

theorem serve_admitted (blake3 : Bytes → Hash) (h : cfg.admits r.peerUID = true) :
    serve cfg s r blake3 = serveMux cfg s r blake3 := by
  unfold serve
  split
  · rfl
  · next hne =>
    rw [Config.admits, List.isEmpty_eq_false_iff.2 hne, Bool.false_or] at h
    obtain ⟨uid, hpeer, hmem⟩ := (Option.any_eq_true _ _).1 h
    rw [hpeer]
    exact if_pos (of_decide_eq_true hmem)

theorem serve_refused (blake3 : Bytes → Hash) (h : cfg.admits r.peerUID = false) :
    ∃ code message, serve cfg s r blake3 = (⟨403, .denied code message none⟩, s) := by
  rw [Config.admits, Bool.or_eq_false_iff] at h
  obtain ⟨hne, hpeer⟩ := h
  unfold serve
  rw [if_neg fun he => by rw [he] at hne; cases hne]
  cases huid : r.peerUID with
  | none => exact ⟨_, _, rfl⟩
  | some uid =>
    rw [huid, Option.any_some] at hpeer
    exact ⟨_, _, if_neg (of_decide_eq_false hpeer)⟩

theorem refuseMethod_disk : (refuseMethod cfg s r).2.disk = s.disk := by
  unfold refuseMethod writeForbiddenOperation
  split <;> rfl

theorem handleUpload_disk (blake3 : Bytes → Hash) (h : r.method = "POST") :
    (handleUpload cfg s r blake3).2.disk =
      (processUpload blake3 r.env cfg.chunking (trimSpace r.fileName) r.body s.disk).2 := by
  unfold handleUpload
  rw [if_neg (not_not.2 h)]
  split
  · next he => rw [he]
  · next he => rw [he]

theorem handleLifecycle_disk (blake3 : Bytes → Hash) (retired : Bool) (manifestID : Bytes)
    (h : r.method = "POST") :
    (handleLifecycle cfg s r retired manifestID).2.disk =
      (r.lifecycleCall retired manifestID).elim s.disk (Call.run blake3 s.disk) := by
  unfold handleLifecycle Request.lifecycleCall
  split
  · rfl
  rw [if_neg (not_not.2 h)]
  unfold callStore
  cases hid : digest manifestID with
  | error e => rfl
  | ok id =>
    cases hfault : r.fault with
    | some e => rfl
    | none =>
      cases retired <;> simp only [Option.elim_some, if_true, Bool.false_eq_true, if_false,
        Call.run, retireManifest, retainManifest] <;> split <;> next he => simp only [he]

theorem handleLifecycle_other (retired : Bool) (manifestID : Bytes) (h : r.method ≠ "POST") :
    (handleLifecycle cfg s r retired manifestID).2.disk = s.disk := by
  unfold handleLifecycle
  split
  · rfl
  · exact refuseMethod_disk cfg s r

theorem handleManifest_disk (blake3 : Bytes → Hash) :
    (handleManifest cfg s r).2.disk =
      (if r.method = "POST" then
        (operationOf (trimPrefix r.url.path (bytes "/internal/v1/manifests/"))).bind fun op =>
          r.lifecycleCall op.1 op.2
      else none).elim s.disk (Call.run blake3 s.disk) := by
  unfold handleManifest
  dsimp only
  cases operationOf (trimPrefix r.url.path (bytes "/internal/v1/manifests/")) with
  | some op =>
    by_cases h : r.method = "POST"
    · rw [if_pos h]
      exact handleLifecycle_disk cfg s r blake3 op.1 op.2 h
    · rw [if_neg h]
      exact handleLifecycle_other cfg s r op.1 op.2 h
  | none =>
    rw [Option.bind_none, ite_self, Option.elim_none]
    dsimp only
    split
    · exact refuseMethod_disk cfg s r
    · split
      · rfl
      · split <;> rfl

theorem serveReadProxyObject_disk (blake3 : Bytes → Hash) (pathPrefix : Bytes) :
    (serveReadProxyObject cfg s r blake3 pathPrefix).2.disk = s.disk := by
  unfold serveReadProxyObject
  split
  · exact refuseMethod_disk cfg s r
  · dsimp only
    split
    · rfl
    · split <;> rfl

theorem handleChunkStatus_disk : (handleChunkStatus cfg s r).2.disk = s.disk := by
  unfold handleChunkStatus
  split
  · exact refuseMethod_disk cfg s r
  · dsimp only
    split
    · rfl
    · split
      · rfl
      · split <;> rfl

/-- **A request leaves the disk as its call does**, and one without a call leaves it alone. -/
theorem serve_disk (blake3 : Bytes → Hash) :
    (serve cfg s r blake3).2.disk = (r.call cfg).elim s.disk (Call.run blake3 s.disk) := by
  unfold Request.call
  cases hadmits : cfg.admits r.peerUID with
  | false =>
    obtain ⟨code, message, hserve⟩ := serve_refused cfg s r blake3 hadmits
    rw [hserve, if_neg fun h => Bool.false_ne_true h.1]
    rfl
  | true =>
    rw [serve_admitted cfg s r blake3 hadmits]
    simp only [true_and]
    unfold serveMux
    cases mux.route r.method r.url with
    | redirect location => rw [ite_self, Option.elim_none]
    | notFound => rw [ite_self, Option.elim_none]
    | handler h =>
      cases h with
      | health =>
        rw [ite_self, Option.elim_none]
        dsimp only [handle, handleHealth]
        split <;> rfl
      | upload =>
        by_cases hpost : r.method = "POST"
        · rw [if_pos hpost]
          exact handleUpload_disk cfg s r blake3 hpost
        · rw [if_neg hpost]
          dsimp only [handle, handleUpload]
          rw [if_pos hpost]
          exact refuseMethod_disk cfg s r
      | manifest => exact handleManifest_disk cfg s r blake3
      | readProxyObject =>
        rw [ite_self, Option.elim_none]
        dsimp only [handle, handleReadProxyObject]
        exact serveReadProxyObject_disk cfg s r blake3 _
      | object =>
        rw [ite_self, Option.elim_none]
        dsimp only [handle, handleObject]
        exact serveReadProxyObject_disk cfg s r blake3 _
      | chunkStatus =>
        rw [ite_self, Option.elim_none]
        exact handleChunkStatus_disk cfg s r

end

/-! ## Runs of the process -/

/-- The call of the Store that an event comes to, of those that change more than the sessions. -/
def Event.call (cfg : Config) : Event → Option Call
  | .request r => r.call cfg
  | .sweep env grace => some (.collectGarbage env grace)
  | .cleanup _ => none
  | .restart _ => none

/-- The calls that the Store gets over the events. -/
def Process.calls (blake3 : Bytes → Hash) (y : Process) : List Event → List Call
  | [] => []
  | e :: es => (e.call y.cfg).toList ++ Process.calls blake3 (y.next blake3 e) es

theorem Process.next_disk (y : Process) (e : Event) :
    ((e.call y.cfg).elim y.disk (Call.run blake3 y.disk)).SameData (y.next blake3 e).disk := by
  cases e with
  | request r =>
    rw [Event.call, ← serve_disk]
    exact .refl _
  | sweep env grace => exact .refl _
  | cleanup now => exact cleanupExpiredUploadSessions_same y.disk now
  | restart cfg => exact .refl _

theorem Process.calls_append (y : Process) (es es' : List Event) :
    y.calls blake3 (es ++ es') = y.calls blake3 es ++ (y.run blake3 es).calls blake3 es' := by
  induction es generalizing y with
  | nil => rfl
  | cons e es ih =>
    rw [List.cons_append, calls, ih, calls, List.append_assoc]
    rfl

theorem Process.stored_next {y : Process} {e : Event}
    (he : ∀ c, e.call y.cfg = some c → c.within {chunking} S)
    (hd : Stored blake3 {chunking} S y.disk) :
    Stored blake3 {chunking} S (y.next blake3 e).disk := by
  refine Stored.same ?_ (y.next_disk e)
  cases hc : e.call y.cfg with
  | none => exact hd
  | some c => exact hd.run (he c hc)

theorem Process.holds_next {y : Process} {e : Event} {object : Bytes}
    (he : ∀ c, e.call y.cfg = some c → c.within {chunking} S ∧
      ∀ now, c ≠ .retireManifest (blake3 object) now)
    (hd : y.disk.Holds blake3 chunking S object) :
    (y.next blake3 e).disk.Holds blake3 chunking S object := by
  refine Disk.Holds.same ?_ (y.next_disk e)
  cases hc : e.call y.cfg with
  | none => exact hd
  | some c => exact hd.run (he c hc).1 (he c hc).2

theorem Process.forall_calls {P : Call → Prop} {y : Process} {e : Event} {es : List Event}
    (h : ∀ c ∈ y.calls blake3 (e :: es), P c) :
    (∀ c, e.call y.cfg = some c → P c) ∧ ∀ c ∈ (y.next blake3 e).calls blake3 es, P c := by
  rw [calls, List.forall_mem_append] at h
  exact ⟨fun c hc => h.1 c (by rw [hc]; exact List.mem_singleton_self c), h.2⟩

theorem Process.stored_run {es : List Event} : ∀ {y : Process},
    (∀ c ∈ y.calls blake3 es, c.within {chunking} S) → Stored blake3 {chunking} S y.disk →
      Stored blake3 {chunking} S (y.run blake3 es).disk := by
  induction es with
  | nil => exact fun _ hd => hd
  | cons e es ih =>
    intro y hes hd
    obtain ⟨he, hes⟩ := Process.forall_calls hes
    exact ih hes (stored_next he hd)

/-- **An object stays active and complete** as long as no call retires it. -/
theorem Process.holds_run {object : Bytes} {es : List Event} : ∀ {y : Process},
    (∀ c ∈ y.calls blake3 es, c.within {chunking} S ∧
      ∀ now, c ≠ .retireManifest (blake3 object) now) →
      y.disk.Holds blake3 chunking S object →
        (y.run blake3 es).disk.Holds blake3 chunking S object := by
  induction es with
  | nil => exact fun _ hd => hd
  | cons e es ih =>
    intro y hes hd
    obtain ⟨he, hes⟩ := Process.forall_calls hes
    exact ih hes (holds_next he hd)

/-! ## Committed objects stay readable -/

def Request.objectID (r : Request) : Option Bytes :=
  if r.method ≠ "GET" then none
  else
    match mux.route r.method r.url with
    | .handler .object => some (trimPrefix r.url.path (bytes "/internal/v1/objects/"))
    | .handler .readProxyObject =>
      some (trimPrefix r.url.path (bytes "/internal/v1/read-proxy/objects/"))
    | _ => none

/-- What both object endpoints answer. -/
theorem serve_object {cfg : Config} {s : Server} {r : Request} {id : Bytes} {h : Hash}
    {body : ObjectBody} (hadmits : cfg.admits r.peerUID = true) (hid : r.objectID = some id)
    (hdigest : digest id = .ok h) (hfault : r.fault = none)
    (hopen : openObject blake3 cfg.strictDownloadVerify cfg.strictVerifyMaxBytes s.disk h =
      .ok body) :
    serve cfg s r blake3 = (⟨200, .object id body⟩, s) := by
  have hne : id ≠ [] := by
    rintro rfl
    have hempty : digest [] = .error .invalidHash := by decide +kernel
    rw [hempty] at hdigest
    cases hdigest
  have hproxy : ∀ pathPrefix, r.method = "GET" → trimPrefix r.url.path pathPrefix = id →
      serveReadProxyObject cfg s r blake3 pathPrefix = (⟨200, .object id body⟩, s) := by
    intro pathPrefix hget htrim
    unfold serveReadProxyObject callStore
    simp only [hget, ne_eq, not_true_eq_false, if_false, htrim, hne, hdigest, hfault, hopen]
  rw [serve_admitted cfg s r blake3 hadmits]
  unfold Request.objectID at hid
  split at hid
  · cases hid
  · next hget =>
    rw [not_not] at hget
    unfold serveMux
    split at hid
    · next hroute =>
      rw [hroute]
      dsimp only [handle, handleObject]
      exact hproxy _ hget (Option.some.inj hid)
    · next hroute =>
      rw [hroute]
      dsimp only [handle, handleReadProxyObject]
      exact hproxy _ hget (Option.some.inj hid)
    · cases hid

/-- A body that no upload and no redirect has. -/
def Body.plain : Body → Bool
  | .committed _ => false
  | .redirect _ => false
  | _ => true

section
variable (cfg : Config) (s : Server) (r : Request)

theorem refuseMethod_plain : (refuseMethod cfg s r).1.body.plain = true := by
  unfold refuseMethod writeForbiddenOperation
  split <;> rfl

theorem handleManifest_plain : (handleManifest cfg s r).1.body.plain = true := by
  unfold handleManifest
  dsimp only
  split
  · unfold handleLifecycle
    split
    · rfl
    · split
      · exact refuseMethod_plain cfg s r
      · split <;> rfl
  · split
    · exact refuseMethod_plain cfg s r
    · split
      · rfl
      · split <;> rfl

theorem serveReadProxyObject_plain (blake3 : Bytes → Hash) (pathPrefix : Bytes) :
    (serveReadProxyObject cfg s r blake3 pathPrefix).1.body.plain = true := by
  unfold serveReadProxyObject
  split
  · exact refuseMethod_plain cfg s r
  · dsimp only
    split
    · rfl
    · split <;> rfl

theorem handleChunkStatus_plain : (handleChunkStatus cfg s r).1.body.plain = true := by
  unfold handleChunkStatus
  split
  · exact refuseMethod_plain cfg s r
  · dsimp only
    split
    · rfl
    · split
      · rfl
      · split <;> rfl

theorem handle_plain (blake3 : Bytes → Hash) {h : Handler} (hh : h ≠ .upload) :
    (handle cfg s r blake3 h).1.body.plain = true := by
  cases h with
  | upload => exact absurd rfl hh
  | health =>
    dsimp only [handle, handleHealth]
    split <;> rfl
  | manifest => exact handleManifest_plain cfg s r
  | readProxyObject =>
    dsimp only [handle, handleReadProxyObject]
    exact serveReadProxyObject_plain cfg s r blake3 _
  | object =>
    dsimp only [handle, handleObject]
    exact serveReadProxyObject_plain cfg s r blake3 _
  | chunkStatus => exact handleChunkStatus_plain cfg s r

variable {cfg s r} {result : UploadCommitResult}

/-- **Only a committed stream is answered as one.** -/
theorem serve_committed (h : (serve cfg s r blake3).1.body = .committed result) :
    r.call cfg = some (.processUpload cfg.chunking r.env (trimSpace r.fileName) r.body) ∧
      (processUpload blake3 r.env cfg.chunking (trimSpace r.fileName) r.body s.disk).1 =
        .ok result := by
  cases hadmits : cfg.admits r.peerUID with
  | false =>
    obtain ⟨code, message, hserve⟩ := serve_refused cfg s r blake3 hadmits
    rw [hserve] at h
    cases h
  | true =>
    rw [serve_admitted cfg s r blake3 hadmits] at h
    unfold serveMux at h
    split at h
    · next handler hroute =>
      by_cases hupload : handler = .upload
      · subst hupload
        dsimp only [handle, handleUpload] at h
        split at h
        · have hplain := refuseMethod_plain cfg s r
          rw [h] at hplain
          cases hplain
        · next hpost =>
          rw [not_not] at hpost
          refine ⟨?_, ?_⟩
          · unfold Request.call
            rw [hadmits, if_pos ⟨rfl, hpost⟩, hroute]
          · split at h
            · cases h
            · next he =>
              cases h
              rw [he]
      · have hplain := handle_plain cfg s r blake3 hupload
        rw [h] at hplain
        cases hplain
    · cases h
    · cases h

end

/-- **A committed object stays readable.** Once an upload has been answered with 201, through any
later requests, sweeps, cleanups and restarts of which none retires the manifest, both object
endpoints answer every spelling of its id with the bytes that were uploaded. -/
theorem committed_stays_readable (hinj : Set.InjOn blake3 S) {cfg : Config}
    {before after : List Event} {upload get : Request} {result : UploadCommitResult} {id : Bytes}
    (hcalls : ∀ c ∈ (Process.start cfg .empty).calls blake3 (before ++ .request upload :: after),
      c.within {chunking} S)
    (hup : ((Process.start cfg .empty).run blake3 before).answer blake3 upload =
      ⟨201, .committed result⟩)
    (hkept : ∀ now, .retireManifest result.manifestID now ∉
      (((Process.start cfg .empty).run blake3 before).next blake3 (.request upload)).calls blake3
        after)
    (hadmits : ((Process.start cfg .empty).run blake3
      (before ++ .request upload :: after)).cfg.admits get.peerUID = true)
    (hid : get.objectID = some id)
    (hspells : Paths.normalizeHash id = .ok (bytes (hex result.manifestID)))
    (hfault : get.fault = none) :
    ((Process.start cfg .empty).run blake3 (before ++ .request upload :: after)).answer blake3 get =
      ⟨200, .object id ⟨upload.body.length, upload.body, none⟩⟩ := by
  rw [Process.calls_append, List.forall_mem_append] at hcalls
  obtain ⟨hbefore, hrest⟩ := hcalls
  have hstored := Process.stored_run (y := Process.start cfg .empty) hbefore .empty
  have hrun : (Process.start cfg .empty).run blake3 (before ++ .request upload :: after) =
      (((Process.start cfg .empty).run blake3 before).next blake3 (.request upload)).run blake3
        after := by
    rw [Process.run, List.foldl_append, List.foldl_cons]
    rfl
  rw [hrun] at hadmits ⊢
  generalize (Process.start cfg .empty).run blake3 before = y at *
  obtain ⟨hupload, hafter⟩ := Process.forall_calls hrest
  obtain ⟨hcall, hok⟩ := serve_committed (congrArg Response.body hup)
  have hwithin := hupload _ hcall
  obtain rfl : y.cfg.chunking = chunking := hwithin.1
  obtain ⟨hholds, hresult⟩ := Disk.Holds.of_upload hinj hstored hwithin hok
  rw [hresult] at hkept hspells
  have hnext :
      (y.next blake3 (.request upload)).disk.Holds blake3 y.cfg.chunking S upload.body := by
    have hdisk := serve_disk y.cfg y.toServer upload blake3
    rw [hcall] at hdisk
    rw [Process.next, hdisk]
    exact hholds
  have hlast := Process.holds_run
    (fun c hc => ⟨hafter c hc, fun now he => hkept now (he ▸ hc)⟩) hnext
  rw [Process.answer, serve_object hadmits hid (digest_eq_ok.2 hspells) hfault
    (hlast.openObject hinj hwithin.2.1 _ _)]

/-! ### An example -/

def sampleServer : Config := ⟨"test", sampleConfig 1, true, 1, [1000], "events.sock"⟩

def sampleUploadUrl : Url :=
  ⟨bytes "/internal/v1/uploads", bytes "/internal/v1/uploads", by decide +kernel⟩

def sampleRequest (method : String) (url : Url) (body : Bytes) : Request :=
  ⟨some 1000, method, url, "a.bin", "", body, .calm 1 5, none, 6⟩

/-- The id of the stream `[7, 8]`, with a space in front of it. -/
def sampleID : Bytes := bytes (" " ++ hex (sampleHash [7, 8]))

def sampleObjectUrl : Url :=
  ⟨bytes "/internal/v1/objects/" ++ sampleID,
    bytes "/internal/v1/objects/%20" ++ bytes (hex (sampleHash [7, 8])), by decide +kernel⟩

def sampleUpload : Request := sampleRequest "POST" sampleUploadUrl [7, 8]

/-- A `DELETE` of the object, a sweep, a cleanup, and a restart in streaming mode. -/
def sampleEvents : List Event :=
  [.request (sampleRequest "DELETE" sampleObjectUrl []), .sweep .calm 9, .cleanup 9,
    .restart { sampleServer with strictDownloadVerify := false }]

theorem committed_stays_readable_sample :
    ((Process.start sampleServer .empty).run sampleHash
      ([] ++ .request sampleUpload :: sampleEvents)).answer sampleHash
        (sampleRequest "GET" sampleObjectUrl []) =
      ⟨200, .object sampleID ⟨(2 : Nat), [7, 8], none⟩⟩ := by
  have hroute : mux.route "POST" sampleUploadUrl = .handler .upload := by
    decide +kernel
  have hcall : sampleUpload.call sampleServer =
      some (.processUpload (sampleConfig 1) (.calm 1 5) "a.bin" [7, 8]) := by
    unfold Request.call
    rw [if_pos (by decide), sampleUpload, sampleRequest, hroute]
    rfl
  have hdelete : ∀ cfg, (sampleRequest "DELETE" sampleObjectUrl []).call cfg = none :=
    fun cfg => if_neg fun h => absurd h.2 (by decide)
  have hafter : ∀ y : Process, y.calls sampleHash sampleEvents = [.collectGarbage .calm 9] := by
    intro y
    simp only [sampleEvents, Process.calls, Event.call, hdelete, Option.toList_none,
      Option.toList_some, List.nil_append, List.append_nil]
  have hwithin : ∀ c ∈ (Process.start sampleServer .empty).calls sampleHash
      ([] ++ .request sampleUpload :: sampleEvents), c.within {sampleConfig 1} sampleData := by
    intro c hc
    rw [List.nil_append, Process.calls, hafter] at hc
    change c ∈ (sampleUpload.call sampleServer).toList ++ _ at hc
    rw [hcall] at hc
    rcases List.mem_append.1 hc with hc | hc
    · obtain rfl := List.mem_singleton.1 hc
      exact sampleData_within (.inl rfl) (Set.mem_singleton _) _
    · obtain rfl := List.mem_singleton.1 hc
      trivial
  have hup : ((Process.start sampleServer .empty).run sampleHash []).answer sampleHash
      sampleUpload =
      ⟨201, .committed ⟨sampleHash [7, 8], sampleHash [7, 8], 2, 2, 0, true, 2, 0⟩⟩ := by
    decide +kernel
  have hspells : Paths.normalizeHash sampleID = .ok (bytes (hex (sampleHash [7, 8]))) := by
    have htext : normalizeHash (" " ++ hex (sampleHash [7, 8])) = .ok (hex (sampleHash [7, 8])) :=
      by decide +kernel
    rw [sampleID, Paths.normalizeHash_text, htext]
    rfl
  refine committed_stays_readable sampleData_injOn hwithin hup (fun now h => ?_)
    (by decide +kernel) (by decide +kernel) hspells rfl
  rw [hafter] at h
  cases List.mem_singleton.1 h

end Uds

end HashBox.Vault
