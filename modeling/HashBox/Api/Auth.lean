import HashBox.Api.Schema
import HashBox.Vault.Names

/-!
# Accounts (`internal/repository/auth_repository.go`, `internal/service/auth_service.go`)

The rows of users, their sessions and their password reset tokens, and the repository's functions on
them. Each of these is one statement or one transaction: it returns the new database, or an error
and then the database stays as it was. `Login` and `ConfirmPasswordReset` make two such calls each
and come in two parts; `Sessions.lean` and `PasswordReset.lean` have their runs beside other calls.
The errors of `activityRepo.Log` are ignored by the source, and the log is left out.

`crypt` is pgcrypto's function of a password and a salt or a hash, `hashToken` the SHA-256 text of a
token; the salts of `gen_salt` and the tokens and ids drawn are given to each function. `toLower`
and `equalFold` are Go's functions on Unicode strings.
-/

namespace HashBox.Api

/-! ## Tables -/

/-- `peran`; the column's check constraint admits these. -/
inductive Role
  | user
  | admin
deriving DecidableEq, Repr

structure UserRow where
  idPengguna : Uuid
  nama : String
  email : String
  passwordHash : String
  peran : Role
deriving DecidableEq, Repr

structure SessionRow where
  id : Uuid
  userId : Uuid
  accessTokenHash : String
  expiresAt : Time
  revokedAt : Option Time
deriving DecidableEq, Repr

structure PasswordResetTokenRow where
  id : Uuid
  userId : Uuid
  tokenHash : String
  expiresAt : Time
  usedAt : Option Time
deriving DecidableEq, Repr

/-- The tables, with the `UNIQUE` constraints on `email` and `token_hash`. -/
@[ext] structure AuthDb where
  users : Table UserRow.idPengguna
  accessSessions : Table SessionRow.id
  passwordResetTokens : Table PasswordResetTokenRow.id
  emailUnique : (users.rows.map UserRow.email).Nodup
  tokenHashUnique : (passwordResetTokens.rows.map PasswordResetTokenRow.tokenHash).Nodup
deriving DecidableEq

/-- `domain.AuthUser`; an empty session id is `none`. -/
structure AuthUser where
  sessionID : Option Uuid
  userID : Uuid
  fullName : String
  email : String
  role : Role
deriving DecidableEq, Repr

def UserRow.toAuthUser (u : UserRow) (sessionID : Option Uuid) : AuthUser :=
  ⟨sessionID, u.idPengguna, u.nama, u.email, u.peran⟩

/-! ## Assignments -/

/-- `SET nama = ?, email = ?`, and the password's hash if there is one to store. -/
def UserRow.withProfile (fullName email : String) (passwordHash : Option String) (u : UserRow) :
    UserRow :=
  { u with nama := fullName, email, passwordHash := passwordHash.getD u.passwordHash }

/-- `SET password_hash = …`. -/
def UserRow.withPassword (passwordHash : String) (u : UserRow) : UserRow := { u with passwordHash }

/-- `SET revoked_at = NOW()`. -/
def SessionRow.revoke (now : Time) (s : SessionRow) : SessionRow := { s with revokedAt := some now }

/-- `SET used_at = NOW()`. -/
def PasswordResetTokenRow.use (now : Time) (r : PasswordResetTokenRow) : PasswordResetTokenRow :=
  { r with usedAt := some now }

/-! ## Conditions of the statements -/

/-- `id_pengguna = ?`. -/
def UserRow.has (userID : Uuid) (u : UserRow) : Bool := u.idPengguna == userID

/-- `id = ? AND used_at IS NULL`. -/
def PasswordResetTokenRow.unused (resetID : Uuid) (r : PasswordResetTokenRow) : Bool :=
  r.id == resetID && r.usedAt.isNone

/-- `user_id = ? AND revoked_at IS NULL`. -/
def SessionRow.unrevoked (userID : Uuid) (s : SessionRow) : Bool :=
  s.userId == userID && s.revokedAt.isNone

/-- The condition of a session's lookup. -/
def SessionRow.accepts (tokenHash : String) (now : Time) (s : SessionRow) : Bool :=
  s.accessTokenHash == tokenHash && s.revokedAt.isNone && decide (now < s.expiresAt)

namespace AuthDb

/-- `UPDATE users SET password_hash = … WHERE …`. -/
def setPasswordWhere (db : AuthDb) (p : UserRow → Bool) (passwordHash : String) : AuthDb :=
  { db with
    users := db.users.updateWhere p (UserRow.withPassword passwordHash) fun _ => rfl
    emailUnique := Table.unique_updateWhere (fun _ => rfl) db.emailUnique }

/-- `UPDATE password_reset_tokens SET used_at = NOW() WHERE …`. -/
def useWhere (db : AuthDb) (p : PasswordResetTokenRow → Bool) (now : Time) : AuthDb :=
  { db with
    passwordResetTokens :=
      db.passwordResetTokens.updateWhere p (PasswordResetTokenRow.use now) fun _ => rfl
    tokenHashUnique := Table.unique_updateWhere (fun _ => rfl) db.tokenHashUnique }

/-- `UPDATE access_sessions SET revoked_at = NOW() WHERE …`. -/
def revokeWhere (db : AuthDb) (p : SessionRow → Bool) (now : Time) : AuthDb :=
  { db with accessSessions := db.accessSessions.updateWhere p (SessionRow.revoke now) fun _ => rfl }

/-! ## Sessions -/

section
variable (crypt : String → String → String)

/-- The credentials' row: `… WHERE email = ? AND password_hash = crypt(?, password_hash)`. -/
def findUserByCredentials (db : AuthDb) (email password : String) : Except Error AuthUser :=
  match db.users.rows.find? fun u =>
      u.email == email && u.passwordHash == crypt password u.passwordHash with
  | none => .error .errUnauthorized
  | some u => .ok (u.toAuthUser none)

def createSession (db : AuthDb) (userID : Uuid) (tokenHash : String) (expiresAt : Time)
    (sessionID : Uuid) : Except Error AuthDb :=
  if !db.users.rows.any (UserRow.has userID) then
    .error (.wrap "insert access session" foreignKeyViolation)
  else
    match db.accessSessions.insert [⟨sessionID, userID, tokenHash, expiresAt, none⟩] with
    | none => .error (.wrap "insert access session" uniqueViolation)
    | some accessSessions => .ok { db with accessSessions }

/-- The first row of the join of the session with its user. -/
def findSessionUserByTokenHash (db : AuthDb) (tokenHash : String) (now : Time) :
    Except Error AuthUser :=
  match db.accessSessions.rows.findSome? fun s =>
      if s.accepts tokenHash now then
        (db.users.rows.find? (UserRow.has s.userId)).map (·.toAuthUser (some s.id))
      else none with
  | none => .error .errUnauthorized
  | some user => .ok user

/-! ## Password resets -/

def findPasswordResetToken (db : AuthDb) (tokenHash : String) :
    Except Error PasswordResetTokenRow :=
  match db.passwordResetTokens.rows.find? fun r => r.tokenHash == tokenHash with
  | none => .error .errNotFound
  | some r => .ok r

/-- `CompletePasswordReset`: the hash, the token and the sessions change together. -/
def completePasswordReset (db : AuthDb) (resetID userID : Uuid) (newPassword salt : String)
    (now : Time) : Except Error AuthDb :=
  if !db.users.rows.any (UserRow.has userID) then .error .errNotFound
  else if !db.passwordResetTokens.rows.any (PasswordResetTokenRow.unused resetID) then
    .error .errInvalidInput
  else
    .ok (((db.setPasswordWhere (UserRow.has userID) (crypt newPassword salt)).useWhere
      (PasswordResetTokenRow.unused resetID) now).revokeWhere (SessionRow.unrevoked userID) now)

/-! ## Profiles -/

def emailExistsForOtherUser (db : AuthDb) (email : String) (userID : Uuid) : Bool :=
  db.users.rows.any fun u => u.email == email && u.idPengguna != userID

def verifyUserPassword (db : AuthDb) (userID : Uuid) (password : String) : Bool :=
  db.users.rows.any fun u =>
    u.idPengguna == userID && u.passwordHash == crypt password u.passwordHash

/-- `UpdateUserProfile`: one `UPDATE … RETURNING`, with or without the password. -/
def updateUserProfile (db : AuthDb) (userID : Uuid) (fullName email newPassword salt : String) :
    Except Error (AuthDb × AuthUser) :=
  let passwordHash := if newPassword = "" then none else some (crypt newPassword salt)
  match db.users.rows.find? (UserRow.has userID) with
  | none => .error .errNotFound
  | some u =>
    if 150 < fullName.length ∨ 255 < email.length then
      .error (.wrap "update user profile" valueTooLong)
    else
      let users := db.users.updateWhere (UserRow.has userID)
        (UserRow.withProfile fullName email passwordHash) fun _ => rfl
      if emailUnique : (users.rows.map UserRow.email).Nodup then
        .ok ({ db with users, emailUnique },
          (u.withProfile fullName email passwordHash).toAuthUser none)
      else .error (.wrap "update user profile" uniqueViolation)

/-- `RevokeOtherSessions`; an empty text is no `uuid`. -/
def revokeOtherSessions (db : AuthDb) (userID : Uuid) (currentSessionID : Option Uuid)
    (now : Time) : Except Error AuthDb :=
  match currentSessionID with
  | none => .error (.wrap "revoke other sessions" invalidText)
  | some currentSessionID =>
    .ok (db.revokeWhere
      (fun s => s.unrevoked userID && s.id != currentSessionID) now)

end

end AuthDb

/-! ## The service -/

section
variable (crypt : String → String → String) (hashToken toLower : String → String)
  (equalFold : String → String → Bool)

/-- `Login` up to the check of the credentials. -/
def checkLogin (db : AuthDb) (email password : String) : Except Error AuthUser :=
  let email := trimSpace (toLower email)
  let password := trimSpace password
  if email = "" ∨ password = "" then .error (.validation "email dan password wajib diisi")
  else db.findUserByCredentials crypt email password

/-- `NewSessionToken`: the text of the 32 bytes drawn, and its hash. -/
def newSessionToken (bytesValue : BitVec 256) : String × String :=
  (Vault.hex bytesValue, hashToken (Vault.hex bytesValue))

/-- `Login` from the token drawn on: a session of `sessionTTLMinute` minutes. -/
def openSession (db : AuthDb) (user : AuthUser) (bytesValue : BitVec 256) (sessionID : Uuid)
    (sessionTTLMinute : Nat) (now : Time) : Except Error AuthDb :=
  db.createSession user.userID (newSessionToken hashToken bytesValue).2
    (now + sessionTTLMinute * 60 * 1000000000) sessionID

def authenticateToken (db : AuthDb) (bearerToken : String) (now : Time) : Except Error AuthUser :=
  if trimSpace bearerToken = "" then .error .errUnauthorized
  else db.findSessionUserByTokenHash (hashToken (trimSpace bearerToken)) now

/-- The message for a token that is not there, is used or has expired. -/
def invalidResetToken : Error :=
  .validation "token reset password tidak valid atau sudah kedaluwarsa"

/-- `ConfirmPasswordReset` up to its transaction: the token's row, and the password to set. -/
def checkPasswordReset (db : AuthDb) (token newPassword confirmPassword : String) (now : Time) :
    Except Error (PasswordResetTokenRow × String) :=
  let token := trimSpace token
  let newPassword := trimSpace newPassword
  let confirmPassword := trimSpace confirmPassword
  if token = "" ∨ newPassword = "" ∨ confirmPassword = "" then
    .error (.validation "token, password baru, dan konfirmasi password wajib diisi")
  else if newPassword.utf8ByteSize < 8 then
    .error (.validation "password baru minimal 8 karakter")
  else if newPassword ≠ confirmPassword then .error (.validation "konfirmasi password belum sama")
  else
    match db.findPasswordResetToken (hashToken token) with
    | .error .errNotFound => .error invalidResetToken
    | .error e => .error e
    | .ok resetToken =>
      if resetToken.usedAt.isSome ∨ resetToken.expiresAt < now then .error invalidResetToken
      else .ok (resetToken, newPassword)

/-! ### Profile updates -/

/-- The repository calls of `UpdateProfile`. -/
inductive ProfileOp
  | emailExists
  | verifyPassword
  | updateProfile
  | revokeSessions
deriving DecidableEq, Repr

/-- What a profile update draws and reads, and which of its calls fail; a call that fails is rolled
back. -/
structure ProfileEnv where
  salt : String
  now : Time
  fault : ProfileOp → Option Error

/-- `UpdateProfile` up to its first write, on the trimmed inputs. -/
def checkProfile (env : ProfileEnv) (db : AuthDb) (user : AuthUser)
    (fullName email currentPassword newPassword : String) : Except Error Unit :=
  let emailChanged := !equalFold email user.email
  let passwordChanged := decide (newPassword ≠ "")
  if fullName = "" ∨ email = "" then .error (.validation "nama dan email wajib diisi")
  else if fullName.utf8ByteSize < 2 ∨ 150 < fullName.utf8ByteSize then
    .error (.validation "nama harus 2-150 karakter")
  else if newPassword ≠ "" ∧ newPassword.utf8ByteSize < 8 then
    .error (.validation "password baru minimal 8 karakter")
  else if (emailChanged || passwordChanged) ∧ currentPassword = "" then
    .error (.validation "password saat ini wajib diisi")
  else
    match env.fault .emailExists with
    | some e => .error (.wrap "query email owner" e)
    | none =>
      if db.emailExistsForOtherUser email user.userID then .error .errConflict
      else if emailChanged || passwordChanged then
        match env.fault .verifyPassword with
        | some e => .error (.wrap "verify user password" e)
        | none =>
          if db.verifyUserPassword crypt user.userID currentPassword then .ok ()
          else .error (.validation "password saat ini tidak sesuai")
      else .ok ()

/-- `UpdateProfile` from its first write on: the profile, then the other sessions. -/
def storeProfile (env : ProfileEnv) (db : AuthDb) (user : AuthUser)
    (fullName email newPassword : String) : Except Error AuthUser × AuthDb :=
  match env.fault .updateProfile with
  | some e => (.error (.wrap "update user profile" e), db)
  | none =>
    match db.updateUserProfile crypt user.userID fullName email newPassword env.salt with
    | .error e => (.error e, db)
    | .ok (db, updatedUser) =>
      let updatedUser := { updatedUser with sessionID := user.sessionID }
      if newPassword = "" then (.ok updatedUser, db)
      else
        match env.fault .revokeSessions with
        | some e => (.error (.wrap "revoke other sessions" e), db)
        | none =>
          match db.revokeOtherSessions user.userID user.sessionID env.now with
          | .error e => (.error e, db)
          | .ok db => (.ok updatedUser, db)

def updateProfile (env : ProfileEnv) (db : AuthDb) (user : AuthUser)
    (fullName email currentPassword newPassword : String) : Except Error AuthUser × AuthDb :=
  let fullName := trimSpace fullName
  let email := trimSpace (toLower email)
  let currentPassword := trimSpace currentPassword
  let newPassword := trimSpace newPassword
  match checkProfile crypt equalFold env db user fullName email currentPassword newPassword with
  | .error e => (.error e, db)
  | .ok () => storeProfile crypt env db user fullName email newPassword

end

end HashBox.Api
