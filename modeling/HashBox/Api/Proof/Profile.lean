import HashBox.Api.Auth
import HashBox.Lib.Utf8

/-!
# Profile updates that return an error

`UpdateProfile` stores the profile in one transaction and revokes the other sessions in the next.
`updateProfile_atomic_iff`: an error leaves the account as it was, except where the first is stored
with a new password and changes the user's row, and the second fails.
-/

namespace HashBox.Api

variable {crypt : String → String → String} {toLower : String → String}
  {equalFold : String → String → Bool} {env : ProfileEnv} {db db' : AuthDb} {user : AuthUser}
  {fullName email currentPassword newPassword : String}

/-! ## What an update promises -/

structure AuthDb.SameAccount (userID : Uuid) (db db' : AuthDb) : Prop where
  user : db'.users.rows.filter (·.idPengguna == userID) =
    db.users.rows.filter (·.idPengguna == userID)
  sessions : db'.accessSessions.rows.filter (·.userId == userID) =
    db.accessSessions.rows.filter (·.userId == userID)

theorem AuthDb.SameAccount.refl (userID : Uuid) (db : AuthDb) : db.SameAccount userID db :=
  ⟨rfl, rfl⟩

/-- An error leaves the account as it was, and after a success with a new password every other
session of the user is revoked. -/
structure AllOrNothing (db : AuthDb) (user : AuthUser) (newPassword : String)
    (result : Except Error AuthUser × AuthDb) : Prop where
  failed : ∀ e, result.1 = .error e → db.SameAccount user.userID result.2
  revoked : ∀ u, result.1 = .ok u → newPassword ≠ "" →
    ∀ s ∈ result.2.accessSessions.rows, s.userId = user.userID → user.sessionID ≠ some s.id →
      s.revokedAt.isSome = true

/-- A call that fails after it stored a profile: the inputs pass the checks, nothing fails up to the
`UPDATE` of the user's row, which changes it, and the other sessions cannot be revoked. -/
structure ProfileEnv.StoresUnrevoked (crypt : String → String → String) (env : ProfileEnv)
    (db : AuthDb) (user : AuthUser) (fullName email currentPassword newPassword : String) :
    Prop where
  nameSize : 2 ≤ fullName.utf8ByteSize ∧ fullName.utf8ByteSize ≤ 150
  emailSize : email ≠ "" ∧ email.length ≤ 255
  newPasswordSize : 8 ≤ newPassword.utf8ByteSize
  currentGiven : currentPassword ≠ ""
  emailExists : env.fault .emailExists = none
  emailFree : ∀ u ∈ db.users.rows, u.email = email → u.idPengguna = user.userID
  verifyPassword : env.fault .verifyPassword = none
  verified : ∃ u ∈ db.users.rows, u.idPengguna = user.userID ∧
    u.passwordHash = crypt currentPassword u.passwordHash
  updateProfile : env.fault .updateProfile = none
  changed : ∃ u ∈ db.users.rows, u.idPengguna = user.userID ∧
    u.withProfile fullName email (some (crypt newPassword env.salt)) ≠ u
  unrevoked : env.fault .revokeSessions ≠ none ∨ user.sessionID = none

/-! ## The checks -/

theorem ne_empty_of_size {s : String} {n : Nat} (hn : 0 < n) (h : n ≤ s.utf8ByteSize) : s ≠ "" := by
  rintro rfl
  rw [String.utf8ByteSize_empty] at h
  omega

theorem checkProfile_ok_iff (hne : newPassword ≠ "") :
    checkProfile crypt equalFold env db user fullName email currentPassword newPassword = .ok () ↔
      (2 ≤ fullName.utf8ByteSize ∧ fullName.utf8ByteSize ≤ 150) ∧ email ≠ "" ∧
      8 ≤ newPassword.utf8ByteSize ∧ currentPassword ≠ "" ∧ env.fault .emailExists = none ∧
      (∀ u ∈ db.users.rows, u.email = email → u.idPengguna = user.userID) ∧
      env.fault .verifyPassword = none ∧
      ∃ u ∈ db.users.rows, u.idPengguna = user.userID ∧
        u.passwordHash = crypt currentPassword u.passwordHash := by
  have hfree : db.emailExistsForOtherUser email user.userID = false ↔
      ∀ u ∈ db.users.rows, u.email = email → u.idPengguna = user.userID := by
    simp [AuthDb.emailExistsForOtherUser]
  have hverified : db.verifyUserPassword crypt user.userID currentPassword = true ↔
      ∃ u ∈ db.users.rows, u.idPengguna = user.userID ∧
        u.passwordHash = crypt currentPassword u.passwordHash := by
    simp [AuthDb.verifyUserPassword]
  rw [← hfree, ← hverified]
  unfold checkProfile
  simp only [hne, ne_eq, not_false_eq_true, decide_true, Bool.or_true, true_and, if_true]
  by_cases hname : 2 ≤ fullName.utf8ByteSize ∧ fullName.utf8ByteSize ≤ 150
  · have hfn : fullName ≠ "" := ne_empty_of_size (by decide) hname.1
    have hlen : ¬ (fullName.utf8ByteSize < 2 ∨ 150 < fullName.utf8ByteSize) := by omega
    by_cases he : email = ""
    · simp [he]
    · by_cases hp : newPassword.utf8ByteSize < 8
      · simp only [hfn, he, or_self, if_false, hlen, hp, if_true, Nat.not_le.2 hp, false_and,
          and_false, reduceCtorEq]
      · by_cases hc : currentPassword = ""
        · simp only [hfn, he, or_self, if_false, hlen, hp, hc, if_true, not_true_eq_false,
            false_and, and_false, reduceCtorEq]
        · simp only [hfn, he, or_self, if_false, hlen, hp, hc, hname, and_self, not_false_eq_true,
            Nat.not_lt.1 hp, true_and]
          cases env.fault .emailExists <;> simp
          cases db.emailExistsForOtherUser email user.userID <;> simp
          cases env.fault .verifyPassword <;> simp
  · have hlen : fullName.utf8ByteSize < 2 ∨ 150 < fullName.utf8ByteSize := by omega
    simp only [hname, false_and, iff_false, hlen, if_true]
    split <;> simp

/-! ## The writes -/

theorem updateUserProfile_ok {salt : String} {updated : AuthUser}
    (h : db.updateUserProfile crypt user.userID fullName email newPassword salt =
      .ok (db', updated)) :
    email.length ≤ 255 ∧ db'.accessSessions = db.accessSessions ∧
      db'.users.rows = Table.updateRows (UserRow.has user.userID)
        (UserRow.withProfile fullName email
          (if newPassword = "" then none else some (crypt newPassword salt))) db.users.rows := by
  unfold AuthDb.updateUserProfile at h
  dsimp only at h
  generalize (if newPassword = "" then none else some (crypt newPassword salt)) = hash at h ⊢
  split at h
  · cases h
  · split at h
    · cases h
    · next hlen =>
      split at h
      · cases h
        exact ⟨by omega, rfl, rfl⟩
      · cases h

theorem updateUserProfile_stores (salt : String) (hname : fullName.utf8ByteSize ≤ 150)
    (hemail : email.length ≤ 255) (hexists : ∃ u ∈ db.users.rows, u.idPengguna = user.userID)
    (hfree : ∀ u ∈ db.users.rows, u.email = email → u.idPengguna = user.userID) :
    ∃ r, db.updateUserProfile crypt user.userID fullName email newPassword salt = .ok r := by
  have hlen : ¬ (150 < fullName.length ∨ 255 < email.length) := by
    have := Utf8.length_le_utf8ByteSize fullName
    omega
  have hunique : ((Table.updateRows (UserRow.has user.userID)
      (UserRow.withProfile fullName email
        (if newPassword = "" then none else some (crypt newPassword salt))) db.users.rows).map
      UserRow.email).Nodup := by
    have hnodup : db.users.rows.Nodup := List.Nodup.of_map _ db.users.primaryKey
    rw [Table.updateRows, List.map_map]
    refine List.Nodup.map_on (fun u hu v hv heq => ?_) hnodup
    have hkey : ∀ w ∈ db.users.rows, w.email = email → w.idPengguna = user.userID := hfree
    simp only [Function.comp_apply] at heq
    by_cases h1 : u.idPengguna = user.userID <;> by_cases h2 : v.idPengguna = user.userID
    · exact db.users.eq_of_key hu hv (h1.trans h2.symm)
    · simp only [UserRow.has, h1, h2, beq_self_eq_true, beq_iff_eq, if_true, if_false,
        UserRow.withProfile] at heq
      exact absurd (hkey v hv heq.symm) h2
    · simp only [UserRow.has, h1, h2, beq_self_eq_true, beq_iff_eq, if_true, if_false,
        UserRow.withProfile] at heq
      exact absurd (hkey u hu heq) h1
    · simp only [UserRow.has, h1, h2, beq_iff_eq, if_false] at heq
      exact List.inj_on_of_nodup_map db.emailUnique hu hv heq
  unfold AuthDb.updateUserProfile
  dsimp only
  generalize (if newPassword = "" then none else some (crypt newPassword salt)) = hash
    at hunique ⊢
  split
  · next hnone =>
    obtain ⟨u, hu, hid⟩ := hexists
    exact absurd hid (by simpa [UserRow.has] using List.find?_eq_none.1 hnone u hu)
  · rw [if_neg hlen]
    split
    · exact ⟨_, rfl⟩
    · next hdup => exact absurd hunique hdup

/-- The update leaves the user's row just if it assigns what the row has. -/
theorem updateRows_same_iff (f : UserRow → UserRow) (hf : ∀ u, (f u).idPengguna = u.idPengguna)
    (userID : Uuid) (rows : List UserRow) :
    (Table.updateRows (UserRow.has userID) f rows).filter (·.idPengguna == userID) =
        rows.filter (·.idPengguna == userID) ↔
      ∀ u ∈ rows, u.idPengguna = userID → f u = u := by
  induction rows with
  | nil => simp [Table.updateRows]
  | cons u rows ih =>
    rw [Table.updateRows] at ih
    rw [Table.updateRows, List.map_cons, List.forall_mem_cons, ← ih]
    by_cases hu : u.idPengguna = userID
    · simp [UserRow.has, hu, hf]
    · simp [UserRow.has, hu]

theorem revokeOtherSessions_revokes {now : Time}
    (h : db.revokeOtherSessions user.userID user.sessionID now = .ok db') {s : SessionRow}
    (hs : s ∈ db'.accessSessions.rows) (hu : s.userId = user.userID)
    (hother : user.sessionID ≠ some s.id) : s.revokedAt.isSome = true := by
  unfold AuthDb.revokeOtherSessions at h
  split at h
  · cases h
  · next currentSessionID hcur =>
    cases h
    rcases Table.mem_updateRows.1 hs with ⟨q, -, -, rfl⟩ | ⟨-, hp⟩
    · rfl
    · have hne : s.id ≠ currentSessionID := fun he => hother (hcur.trans (he ▸ rfl))
      by_contra hnone
      simp [SessionRow.unrevoked, hu, hne, Option.not_isSome_iff_eq_none.1 hnone] at hp

theorem revokeOtherSessions_error {now : Time} :
    (∃ e, db.revokeOtherSessions user.userID user.sessionID now = .error e) ↔
      user.sessionID = none := by
  unfold AuthDb.revokeOtherSessions
  cases user.sessionID <;> simp

/-! ## The whole call -/

theorem storeProfile_cases (hne : newPassword ≠ "") :
    (env.fault .updateProfile ≠ none ∨
        ∃ e, db.updateUserProfile crypt user.userID fullName email newPassword env.salt =
          .error e) ∧
      (∃ e, storeProfile crypt env db user fullName email newPassword = (.error e, db)) ∨
    ∃ db1 updated, env.fault .updateProfile = none ∧
      db.updateUserProfile crypt user.userID fullName email newPassword env.salt =
        .ok (db1, updated) ∧
      ((env.fault .revokeSessions ≠ none ∨ user.sessionID = none) ∧
        (∃ e, storeProfile crypt env db user fullName email newPassword = (.error e, db1)) ∨
      ∃ db2 u, env.fault .revokeSessions = none ∧
        db1.revokeOtherSessions user.userID user.sessionID env.now = .ok db2 ∧
        storeProfile crypt env db user fullName email newPassword = (.ok u, db2)) := by
  unfold storeProfile
  cases hf : env.fault .updateProfile with
  | some e => exact .inl ⟨.inl (by simp), _, rfl⟩
  | none =>
    cases hup : db.updateUserProfile crypt user.userID fullName email newPassword env.salt with
    | error e => exact .inl ⟨.inr ⟨e, rfl⟩, _, rfl⟩
    | ok r =>
      obtain ⟨db1, updated⟩ := r
      refine .inr ⟨db1, updated, rfl, rfl, ?_⟩
      simp only [hne, if_false]
      cases hr : env.fault .revokeSessions with
      | some e => exact .inl ⟨.inl (by simp), _, rfl⟩
      | none =>
        cases hrev : db1.revokeOtherSessions user.userID user.sessionID env.now with
        | error e => exact .inl ⟨.inr (revokeOtherSessions_error.1 ⟨e, hrev⟩), _, rfl⟩
        | ok db2 => exact .inr ⟨db2, _, rfl, rfl, rfl⟩

theorem storeProfile_kept {e : Error}
    (h : (storeProfile crypt env db user fullName email "").1 = .error e) :
    (storeProfile crypt env db user fullName email "").2 = db := by
  unfold storeProfile at h ⊢
  cases hf : env.fault .updateProfile with
  | some e => rfl
  | none =>
    cases hup : db.updateUserProfile crypt user.userID fullName email "" env.salt with
    | error e => rfl
    | ok r => simp [hf, hup] at h

/-- **Which failed updates change the account.** -/
theorem storeProfile_atomic_iff
    (hcheck : checkProfile crypt equalFold env db user fullName email currentPassword newPassword =
      .ok ()) :
    AllOrNothing db user newPassword (storeProfile crypt env db user fullName email newPassword) ↔
      ¬ env.StoresUnrevoked crypt db user fullName email currentPassword newPassword := by
  by_cases hne : newPassword = ""
  · subst hne
    refine iff_of_true ⟨fun e he => ?_, fun _ _ hp => absurd rfl hp⟩ fun hs => ?_
    · rw [storeProfile_kept he]
      exact .refl _ db
    · exact ne_empty_of_size (by decide) hs.newPasswordSize rfl
  · obtain ⟨hname, hemail, hnew, hcur, hex, hfree, hver, hverified⟩ :=
      (checkProfile_ok_iff hne).1 hcheck
    have hexists : ∃ u ∈ db.users.rows, u.idPengguna = user.userID :=
      hverified.imp fun u hu => ⟨hu.1, hu.2.1⟩
    rcases @storeProfile_cases crypt env db user fullName email newPassword hne with
      ⟨hfail, e, he⟩ | ⟨db1, updated, hf, hup, ⟨hun, e, he⟩ | ⟨db2, u, hf', hrev, hres⟩⟩
    · rw [he]
      refine iff_of_true ⟨fun _ _ => .refl _ db, fun _ h => by cases h⟩ fun hs => ?_
      obtain ⟨r, hr⟩ := @updateUserProfile_stores crypt db user fullName email newPassword
        env.salt hname.2 hs.emailSize.2 hexists hfree
      rcases hfail with hfail | ⟨e', he'⟩
      · exact hfail hs.updateProfile
      · cases hr.symm.trans he'
    · obtain ⟨hsize, hsess, husers⟩ := updateUserProfile_ok hup
      rw [if_neg hne] at husers
      -- what is stored stays; it is the account as it was only if nothing was assigned anew
      have hsame := updateRows_same_iff
        (UserRow.withProfile fullName email (some (crypt newPassword env.salt))) (fun _ => rfl)
        user.userID db.users.rows
      rw [← husers] at hsame
      rw [he]
      constructor
      · intro hall hs
        obtain ⟨u, hu, hid, hchanged⟩ := hs.changed
        exact hchanged (hsame.1 (hall.failed e rfl).user u hu hid)
      · refine fun hs => ⟨fun _ _ => ⟨hsame.2 fun u hu hid => ?_, by rw [hsess]⟩,
          fun _ h => by cases h⟩
        by_contra hchanged
        exact hs ⟨hname, ⟨hemail, hsize⟩, hnew, hcur, hex, hfree, hver, hverified, hf,
          ⟨u, hu, hid, hchanged⟩, hun⟩
    · rw [hres]
      refine iff_of_true ⟨fun _ h => (by cases h), fun _ _ _ s hs huser hother =>
        revokeOtherSessions_revokes hrev hs huser hother⟩ fun hs => ?_
      rcases hs.unrevoked with hun | hun
      · exact hun hf'
      · obtain ⟨e, he⟩ := revokeOtherSessions_error.2 hun
        cases hrev.symm.trans he

/-- **Profile updates, whatever fails.** The promise is kept except by the calls that store the
profile and then cannot revoke the other sessions. -/
theorem updateProfile_atomic_iff (crypt : String → String → String) (toLower : String → String)
    (equalFold : String → String → Bool) (env : ProfileEnv) (db : AuthDb) (user : AuthUser)
    (fullName email currentPassword newPassword : String) :
    AllOrNothing db user (trimSpace newPassword)
        (updateProfile crypt toLower equalFold env db user fullName email currentPassword
          newPassword) ↔
      ¬ env.StoresUnrevoked crypt db user (trimSpace fullName) (trimSpace (toLower email))
        (trimSpace currentPassword) (trimSpace newPassword) := by
  unfold updateProfile
  dsimp only
  cases hcheck : checkProfile crypt equalFold env db user (trimSpace fullName)
    (trimSpace (toLower email)) (trimSpace currentPassword) (trimSpace newPassword) with
  | ok _ => exact storeProfile_atomic_iff hcheck
  | error e =>
    refine iff_of_true ⟨fun _ _ => .refl _ db, fun _ h => by cases h⟩ fun hs => ?_
    have hne := ne_empty_of_size (by decide) hs.newPasswordSize
    rw [(checkProfile_ok_iff hne).2 ⟨hs.nameSize, hs.emailSize.1, hs.newPasswordSize,
      hs.currentGiven, hs.emailExists, hs.emailFree, hs.verifyPassword, hs.verified⟩] at hcheck
    cases hcheck

/-- Rani's account, with the sessions 5 and 6; the sample's hash of a password is the password. -/
def sampleAccount : AuthDb where
  users := ⟨[⟨1, "Rani", "rani@hashbox.id", "kata-lama", .user⟩], by decide⟩
  accessSessions := ⟨[⟨5, 1, "t5", 100, none⟩, ⟨6, 1, "t6", 100, none⟩], by decide⟩
  passwordResetTokens := .empty
  emailUnique := by decide
  tokenHashUnique := by decide

/-- The server is shut down (`admin_shutdown`) after the first transaction. -/
def ProfileEnv.shutDown : ProfileEnv :=
  ⟨"", 50, fun op => if op = .revokeSessions then some (.pg "57P01") else none⟩

/-- The call returns an error, and the new password is stored. -/
theorem update_stores_unrevoked : ¬ AllOrNothing sampleAccount
    ⟨some 5, 1, "Rani", "rani@hashbox.id", .user⟩ (trimSpace "kata-baru")
    (updateProfile (fun password _ => password) id (· == ·) .shutDown sampleAccount
      ⟨some 5, 1, "Rani", "rani@hashbox.id", .user⟩ "Rani" "rani@hashbox.id" "kata-lama"
      "kata-baru") := by
  intro h
  have failed : (updateProfile (fun password _ => password) id (· == ·) .shutDown sampleAccount
      ⟨some 5, 1, "Rani", "rani@hashbox.id", .user⟩ "Rani" "rani@hashbox.id" "kata-lama"
      "kata-baru").1 = .error (.wrap "revoke other sessions" (.pg "57P01")) := by
    decide
  exact absurd (h.failed _ failed).user (by decide)

end HashBox.Api
