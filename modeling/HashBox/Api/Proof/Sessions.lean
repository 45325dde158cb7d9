import Mathlib.Data.String.Basic
import HashBox.Api.Sessions

/-!
# Sessions after a password reset

`CompletePasswordReset` revokes the sessions there are. A login that verified the old password and
has not inserted its session yet inserts it afterwards, and the session is accepted
(`outdated_accepted`). In runs in which no such login goes on, no token given for an earlier
password is accepted (`outdated_refused`).
-/

namespace HashBox.Api

variable {crypt : String → String → String} {hashToken toLower : String → String}

/-! ## The statements -/

theorem createSession_ok {db db' : AuthDb} {userID sessionID : Uuid} {tokenHash : String}
    {expiresAt : Time} (h : db.createSession userID tokenHash expiresAt sessionID = .ok db') :
    db'.accessSessions.rows =
      db.accessSessions.rows ++ [⟨sessionID, userID, tokenHash, expiresAt, none⟩] := by
  unfold AuthDb.createSession at h
  split at h
  · cases h
  · split at h
    · cases h
    · next ht =>
      cases h
      exact Table.insert_rows ht

theorem completePasswordReset_ok {db db' : AuthDb} {resetID userID : Uuid}
    {newPassword salt : String} {now : Time} :
    db.completePasswordReset crypt resetID userID newPassword salt now = .ok db' ↔
      (∃ u ∈ db.users.rows, u.idPengguna = userID) ∧
      (∃ r ∈ db.passwordResetTokens.rows, r.id = resetID ∧ r.usedAt = none) ∧
      db' = ((db.setPasswordWhere (UserRow.has userID) (crypt newPassword salt)).useWhere
        (PasswordResetTokenRow.unused resetID) now).revokeWhere (SessionRow.unrevoked userID)
          now := by
  unfold AuthDb.completePasswordReset
  have huser : db.users.rows.any (UserRow.has userID) = true ↔
      ∃ u ∈ db.users.rows, u.idPengguna = userID := by simp [UserRow.has]
  have htoken : db.passwordResetTokens.rows.any (PasswordResetTokenRow.unused resetID) = true ↔
      ∃ r ∈ db.passwordResetTokens.rows, r.id = resetID ∧ r.usedAt = none := by
    simp [PasswordResetTokenRow.unused]
  rw [← huser, ← htoken]
  cases db.users.rows.any (UserRow.has userID) with
  | false => simp
  | true =>
    cases db.passwordResetTokens.rows.any (PasswordResetTokenRow.unused resetID) with
    | false => simp
    | true => simp [eq_comm]

theorem authenticateToken_refused {db : AuthDb} {bearerToken : String}
    (h : ∀ r ∈ db.accessSessions.rows, r.accessTokenHash = hashToken (trimSpace bearerToken) →
      r.revokedAt.isSome = true) (now : Time) :
    authenticateToken hashToken db bearerToken now = .error .errUnauthorized := by
  unfold authenticateToken
  split
  · rfl
  · have hnone : (db.accessSessions.rows.findSome? fun s =>
        if s.accepts (hashToken (trimSpace bearerToken)) now then
          (db.users.rows.find? (UserRow.has s.userId)).map (·.toAuthUser (some s.id))
        else none) = none := by
      refine List.findSome?_eq_none_iff.2 fun r hr => if_neg fun hacc => ?_
      simp only [SessionRow.accepts, Bool.and_eq_true, beq_iff_eq] at hacc
      obtain ⟨⟨hhash, hnot⟩, -⟩ := hacc
      have hsome := h r hr hhash
      rw [Option.isNone_iff_eq_none.1 hnot] at hsome
      cases hsome
    unfold AuthDb.findSessionUserByTokenHash
    rw [hnone]

/-! ## The invariant -/

namespace AuthSystem

/-- The token's sessions are its user's, there is one, and once the token is outdated all of them
are revoked. -/
structure Kept (hashToken : String → String) (db : AuthDb) (resets : Uuid → Nat)
    (x : IssuedToken) : Prop where
  resets_le : x.resets ≤ resets x.userID
  stored : ∃ r ∈ db.accessSessions.rows,
    r.accessTokenHash = (newSessionToken hashToken x.bytesValue).2
  owner : ∀ r ∈ db.accessSessions.rows,
    r.accessTokenHash = (newSessionToken hashToken x.bytesValue).2 → r.userId = x.userID
  revoked : x.resets < resets x.userID → ∀ r ∈ db.accessSessions.rows,
    r.accessTokenHash = (newSessionToken hashToken x.bytesValue).2 → r.revokedAt.isSome = true

def Inv (hashToken : String → String) (s : AuthSystem) : Prop :=
  ∀ x ∈ s.issued, Kept hashToken s.db s.resets x

/-- A session with a new hash leaves the other tokens' sessions as they are. -/
theorem Kept.create {db db' : AuthDb} {resets : Uuid → Nat} {x : IssuedToken}
    {userID sessionID : Uuid} {tokenHash : String} {expiresAt : Time}
    (hx : Kept hashToken db resets x)
    (h : db.createSession userID tokenHash expiresAt sessionID = .ok db')
    (hnew : ∀ r ∈ db.accessSessions.rows, r.accessTokenHash ≠ tokenHash) :
    Kept hashToken db' resets x := by
  have hrows := createSession_ok h
  have hold : ∀ r ∈ db'.accessSessions.rows,
      r.accessTokenHash = (newSessionToken hashToken x.bytesValue).2 →
        r ∈ db.accessSessions.rows := by
    intro r hr hhash
    rw [hrows] at hr
    rcases List.mem_append.1 hr with hr | hr
    · exact hr
    · rw [List.mem_singleton.1 hr] at hhash
      obtain ⟨q, hq, hqhash⟩ := hx.stored
      exact absurd (hqhash.trans hhash.symm) (hnew q hq)
  refine ⟨hx.resets_le, ?_, fun r hr hhash => hx.owner r (hold r hr hhash) hhash,
    fun hlt r hr hhash => hx.revoked hlt r (hold r hr hhash) hhash⟩
  obtain ⟨q, hq, hqhash⟩ := hx.stored
  exact ⟨q, hrows ▸ List.mem_append_left _ hq, hqhash⟩

/-- A new token has the one session just created for it. -/
theorem Kept.issue {db db' : AuthDb} {resets : Uuid → Nat} {userID sessionID : Uuid}
    {bytesValue : BitVec 256} {expiresAt : Time}
    (h : db.createSession userID (newSessionToken hashToken bytesValue).2 expiresAt sessionID =
      .ok db')
    (hnew : ∀ r ∈ db.accessSessions.rows,
      r.accessTokenHash ≠ (newSessionToken hashToken bytesValue).2) :
    Kept hashToken db' resets ⟨bytesValue, userID, resets userID⟩ := by
  have hrows := createSession_ok h
  refine ⟨Nat.le_refl _, ?_, fun r hr hhash => ?_, fun hlt => absurd hlt (Nat.lt_irrefl _)⟩
  · exact ⟨_, hrows ▸ List.mem_append_right _ (List.mem_singleton_self _), rfl⟩
  · rw [hrows] at hr
    rcases List.mem_append.1 hr with hr | hr
    · exact absurd hhash (hnew r hr)
    · rw [List.mem_singleton.1 hr]

/-- A reset revokes what the tokens of its user have. -/
theorem Kept.reset {db db' : AuthDb} {resets : Uuid → Nat} {x : IssuedToken}
    {resetID userID : Uuid} {newPassword salt : String} {now : Time}
    (hx : Kept hashToken db resets x)
    (h : db.completePasswordReset crypt resetID userID newPassword salt now = .ok db') :
    Kept hashToken db' (Function.update resets userID (resets userID + 1)) x := by
  obtain ⟨-, -, rfl⟩ := completePasswordReset_ok.1 h
  have hrow : ∀ r' ∈ Table.updateRows (SessionRow.unrevoked userID) (SessionRow.revoke now)
        db.accessSessions.rows,
      ∃ r ∈ db.accessSessions.rows, r'.accessTokenHash = r.accessTokenHash ∧
        r'.userId = r.userId ∧ (r.revokedAt.isSome = true → r'.revokedAt.isSome = true) ∧
        (r.userId = userID → r'.revokedAt.isSome = true) := by
    intro r' hr'
    rcases Table.mem_updateRows.1 hr' with ⟨r, hr, -, rfl⟩ | ⟨hr, hp⟩
    · exact ⟨r, hr, rfl, rfl, fun _ => rfl, fun _ => rfl⟩
    · refine ⟨r', hr, rfl, rfl, id, fun hu => ?_⟩
      by_contra hnone
      simp [SessionRow.unrevoked, hu, Option.not_isSome_iff_eq_none.1 hnone] at hp
  refine ⟨?_, ?_, fun r' hr' hhash => ?_, fun hlt r' hr' hhash => ?_⟩
  · refine Nat.le_trans hx.resets_le ?_
    by_cases hu : x.userID = userID
    · rw [hu, Function.update_self]
      exact Nat.le_succ _
    · rw [Function.update_of_ne hu]
  · obtain ⟨q, hq, hqhash⟩ := hx.stored
    by_cases hp : q.unrevoked userID = true
    · exact ⟨q.revoke now, Table.mem_updateRows.2 (.inl ⟨q, hq, hp, rfl⟩), hqhash⟩
    · exact ⟨q, Table.mem_updateRows.2 (.inr ⟨hq, Bool.eq_false_iff.2 hp⟩), hqhash⟩
  · obtain ⟨r, hr, hh, hu, -⟩ := hrow r' hr'
    rw [hu]
    exact hx.owner r hr (hh ▸ hhash)
  · obtain ⟨r, hr, hh, -, hkeep, hrev⟩ := hrow r' hr'
    by_cases hu : x.userID = userID
    · exact hrev ((hx.owner r hr (hh ▸ hhash)).trans hu)
    · rw [Function.update_of_ne hu] at hlt
      exact hkeep (hx.revoked hlt r hr (hh ▸ hhash))

theorem inv_idle (db : AuthDb) : Inv hashToken (idle db) := fun _ hx => by cases hx

/-- **One step.** -/
theorem Inv.step {s s' : AuthSystem} {a : AuthAction} (hs : Inv hashToken s)
    (hnew : DrawsNew hashToken s a) (hcur : OpensCurrent s a)
    (h : step crypt hashToken toLower s a = some s') : Inv hashToken s' := by
  cases a with
  | checkLogin t email password =>
    simp only [AuthSystem.step] at h
    split at h
    · cases h
    · split at h <;> cases h <;> exact hs
  | openSession t bytesValue sessionID sessionTTLMinute now =>
    simp only [AuthSystem.step] at h
    split at h
    · next user resets hcall =>
      split at h
      · cases h
        exact hs
      · next db hdb =>
        cases h
        intro x hx
        rcases List.mem_cons.1 hx with rfl | hx
        · have hresets : s.resets user.userID = resets := hcur _ hcall
          rw [← hresets]
          exact .issue hdb hnew
        · exact (hs x hx).create hdb hnew
    · cases h
  | checkPasswordReset t token newPassword confirmPassword now =>
    simp only [AuthSystem.step] at h
    split at h
    · cases h
    · split at h <;> cases h <;> exact hs
  | completePasswordReset t salt now =>
    simp only [AuthSystem.step] at h
    split at h
    · split at h
      · cases h
        exact hs
      · next db hdb =>
        cases h
        exact fun x hx => (hs x hx).reset hdb
    · cases h
  | authenticateToken bearerToken now =>
    cases h
    exact hs
  | giveUp t =>
    cases h
    exact hs

/-- **Logins and resets side by side.** From any database, in every run in which the tokens drawn
are new and no login opens its session after a reset of the password it verified, a token whose
password has been reset since is refused, in every state reached and at every time. -/
theorem outdated_refused (crypt : String → String → String) (hashToken toLower : String → String)
    (db : AuthDb) {s : AuthSystem}
    (h : Runs.Reach (AuthSystem.step crypt hashToken toLower)
      (fun s a => DrawsNew hashToken s a ∧ OpensCurrent s a) (· = idle db) s)
    {x : IssuedToken} (hx : x ∈ s.issued) (hout : s.outdated x) (now : Time) :
    authenticateToken hashToken s.db (newSessionToken hashToken x.bytesValue).1 now =
      .error .errUnauthorized := by
  have hinv : Inv hashToken s := h.inv (fun _ he => he ▸ inv_idle db)
    fun _ _ _ hs hok hstep => hs.step hok.1 hok.2 hstep
  refine authenticateToken_refused (fun r hr hhash => (hinv x hx).revoked hout r hr ?_) now
  rw [hhash, newSessionToken, Vault.trimSpace_hex]

/-! ## A login across a reset -/

/-- Sami's account with a reset token; the hash of a text is the text. -/
def sampleAccounts : AuthDb where
  users := ⟨[⟨1, "Sami", "sami@hashbox.id", "kata-lama", .user⟩], by decide⟩
  accessSessions := .empty
  passwordResetTokens := ⟨[⟨3, 1, "reset", 100, none⟩], by decide⟩
  emailUnique := by decide
  tokenHashUnique := by decide

def sampleStep : AuthSystem → AuthAction → Option AuthSystem :=
  step (fun password _ => password) id id

/-- The password is verified, then reset, and the session opened after that. -/
def resetDuringLogin : List AuthAction :=
  [.checkLogin 0 "sami@hashbox.id" "kata-lama",
   .checkPasswordReset 1 "reset" "kata-baru" "kata-baru" 10,
   .completePasswordReset 1 "" 11,
   .openSession 0 9 7 60 12]

/-- The same calls, with the session opened before the reset. -/
def resetAfterLogin : List AuthAction :=
  [.checkLogin 0 "sami@hashbox.id" "kata-lama",
   .openSession 0 9 7 60 8,
   .checkPasswordReset 1 "reset" "kata-baru" "kata-baru" 10,
   .completePasswordReset 1 "" 11]

instance (s : AuthSystem) (a : AuthAction) : Decidable (DrawsNew id s a) := by
  cases a <;> unfold DrawsNew <;> infer_instance

instance (s : AuthSystem) (c : AuthCall) : Decidable (s.current c) := by
  cases c <;> unfold current <;> infer_instance

instance (s : AuthSystem) (a : AuthAction) : Decidable (OpensCurrent s a) := by
  cases a <;> unfold OpensCurrent <;> infer_instance

instance (s : AuthSystem) (x : IssuedToken) : Decidable (s.outdated x) := by
  unfold outdated
  infer_instance

/-- The session opened before the reset is refused after it. -/
theorem outdated_refused_sample : ∃ s x,
    Runs.Reach sampleStep (fun s a => DrawsNew id s a ∧ OpensCurrent s a)
      (· = idle sampleAccounts) s ∧ x ∈ s.issued ∧ s.outdated x ∧
    authenticateToken id s.db (newSessionToken id x.bytesValue).1 13 = .error .errUnauthorized := by
  have run : (Runs.exec (Runs.guarded sampleStep fun s a => DrawsNew id s a ∧ OpensCurrent s a)
      (idle sampleAccounts) resetAfterLogin).any (fun s => s.issued.any fun x => s.outdated x) =
        true := by decide
  obtain ⟨s, hs, hx⟩ := (Option.any_eq_true _ _).1 run
  obtain ⟨x, hx, hout⟩ := List.any_eq_true.1 hx
  have hreach : Runs.Reach sampleStep (fun s a => DrawsNew id s a ∧ OpensCurrent s a)
      (· = idle sampleAccounts) s := .exec_guarded (.init rfl) hs
  exact ⟨s, x, hreach, hx, of_decide_eq_true hout,
    outdated_refused _ id id sampleAccounts hreach hx (of_decide_eq_true hout) 13⟩

/-- The session opened after the reset is accepted, though its login verified the password that the
reset replaced. -/
theorem outdated_accepted : ¬ ∀ s, Runs.Reach sampleStep (DrawsNew id) (· = idle sampleAccounts) s →
    ∀ x ∈ s.issued, s.outdated x → ∀ now, ∃ e,
      authenticateToken id s.db (newSessionToken id x.bytesValue).1 now = .error e := by
  intro h
  have run : (Runs.exec (Runs.guarded sampleStep (DrawsNew id)) (idle sampleAccounts)
      resetDuringLogin).any (fun s => s.issued.any fun x => decide (s.outdated x) &&
        (authenticateToken id s.db (newSessionToken id x.bytesValue).1 13).toOption.isSome) =
        true := by decide
  obtain ⟨s, hs, hx⟩ := (Option.any_eq_true _ _).1 run
  obtain ⟨x, hx, hout⟩ := List.any_eq_true.1 hx
  obtain ⟨hout, hacc⟩ := Bool.and_eq_true_iff.1 hout
  obtain ⟨e, he⟩ := h s (.exec_guarded (.init rfl) hs) x hx (of_decide_eq_true hout) 13
  rw [he] at hacc
  cases hacc

end AuthSystem

end HashBox.Api
