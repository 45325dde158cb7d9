import HashBox.Lib.Dict
import HashBox.Lib.Runs
import HashBox.Api.Auth

/-!
# Logins and password resets side by side

The calls `Login`, `ConfirmPasswordReset` and `AuthenticateToken`, any number of them under way at
once. Each statement or transaction is one step. A call that returns an error, for whatever reason,
is given up and has changed nothing.

The system keeps account of what the sessions' tokens were given for: `resets` counts the completed
resets of a user, and an issued token has the count of the moment its password was verified.
-/

namespace HashBox.Api

/-- A call between its two parts. -/
inductive AuthCall
  | login (user : AuthUser) (resets : Nat)
  | confirmPasswordReset (resetToken : PasswordResetTokenRow) (newPassword : String)

/-- A token that `Login` has returned. -/
structure IssuedToken where
  bytesValue : BitVec 256
  userID : Uuid
  resets : Nat

structure AuthSystem where
  db : AuthDb
  calls : Dict Nat AuthCall
  resets : Uuid → Nat
  issued : List IssuedToken

inductive AuthAction
  | checkLogin (t : Nat) (email password : String)
  | openSession (t : Nat) (bytesValue : BitVec 256) (sessionID : Uuid) (sessionTTLMinute : Nat)
    (now : Time)
  | checkPasswordReset (t : Nat) (token newPassword confirmPassword : String) (now : Time)
  | completePasswordReset (t : Nat) (salt : String) (now : Time)
  | authenticateToken (bearerToken : String) (now : Time)
  | giveUp (t : Nat)

namespace AuthSystem

def idle (db : AuthDb) : AuthSystem := ⟨db, ∅, fun _ => 0, []⟩

/-- The password that the token was given for has been reset since. -/
def outdated (s : AuthSystem) (x : IssuedToken) : Prop := x.resets < s.resets x.userID

section
variable (crypt : String → String → String) (hashToken toLower : String → String)

def step (s : AuthSystem) : AuthAction → Option AuthSystem
  | .checkLogin t email password =>
    if (s.calls.lookup t).isSome then none
    else
      match checkLogin crypt toLower s.db email password with
      | .error _ => some s
      | .ok user => some { s with calls := s.calls.insert t (.login user (s.resets user.userID)) }
  | .openSession t bytesValue sessionID sessionTTLMinute now =>
    match s.calls.lookup t with
    | some (.login user resets) =>
      let s := { s with calls := s.calls.erase t }
      match openSession hashToken s.db user bytesValue sessionID sessionTTLMinute now with
      | .error _ => some s
      | .ok db => some { s with db, issued := ⟨bytesValue, user.userID, resets⟩ :: s.issued }
    | _ => none
  | .checkPasswordReset t token newPassword confirmPassword now =>
    if (s.calls.lookup t).isSome then none
    else
      match checkPasswordReset hashToken s.db token newPassword confirmPassword now with
      | .error _ => some s
      | .ok (resetToken, newPassword) =>
        some { s with calls := s.calls.insert t (.confirmPasswordReset resetToken newPassword) }
  | .completePasswordReset t salt now =>
    match s.calls.lookup t with
    | some (.confirmPasswordReset resetToken newPassword) =>
      let s := { s with calls := s.calls.erase t }
      let userID := resetToken.userId
      match s.db.completePasswordReset crypt resetToken.id userID newPassword salt now with
      | .error _ => some s
      | .ok db =>
        some { s with db, resets := Function.update s.resets userID (s.resets userID + 1) }
    | _ => none
  -- one `SELECT`
  | .authenticateToken _ _ => some s
  | .giveUp t => some { s with calls := s.calls.erase t }

end

/-- The random bytes are new: no session has the hash of their text. -/
def DrawsNew (hashToken : String → String) (s : AuthSystem) : AuthAction → Prop
  | .openSession _ bytesValue _ _ _ =>
    ∀ r ∈ s.db.accessSessions.rows, r.accessTokenHash ≠ (newSessionToken hashToken bytesValue).2
  | _ => True

/-- The user's password has not been reset since the login verified it. -/
def current (s : AuthSystem) : AuthCall → Prop
  | .login user resets => s.resets user.userID = resets
  | .confirmPasswordReset _ _ => True

/-- No login opens its session after a reset of the password it verified. -/
def OpensCurrent (s : AuthSystem) : AuthAction → Prop
  | .openSession t _ _ _ _ => ∀ c ∈ s.calls.lookup t, s.current c
  | _ => True

end AuthSystem

end HashBox.Api
