import HashBox.Lib.Dict
import HashBox.Lib.ReadCommitted
import HashBox.Lib.Runs
import HashBox.Api.Auth

/-!
# Password resets statement by statement

`ConfirmPasswordReset` called any number of times with one token: each call looks the token up and
then runs the transaction of `CompletePasswordReset` as PostgreSQL does under READ COMMITTED. A step
is the lookup, the start of a transaction or of a statement, one row that an `UPDATE` comes to, or
the commit; a call may fail at any point, and its transaction is rolled back then. What a
transaction has written it alone sees until it commits.
-/

namespace HashBox.Api

/-- What a row lock is on. -/
inductive AccountRow
  | user (id : Uuid)
  | resetToken (id : Uuid)
  | session (id : Uuid)
deriving DecidableEq, Repr

/-- Where a transaction is. A `Scan` is an `UPDATE` under way. -/
inductive ResetPoint
  | setPassword
  | settingPassword (scan : Scan UserRow AccountRow)
  | useToken
  | usingToken (scan : Scan PasswordResetTokenRow AccountRow)
  | revokeSessions
  | revokingSessions (scan : Scan SessionRow AccountRow)
  | commit

/-- The transaction of `CompletePasswordReset`, with the rows that it has updated. -/
structure ResetTxn where
  resetID : Uuid
  userID : Uuid
  newPassword : String
  salt : String
  now : Time
  point : ResetPoint
  users : List Uuid
  resetTokens : List Uuid
  sessions : List Uuid

def ResetTxn.start (resetToken : PasswordResetTokenRow) (newPassword salt : String) (now : Time) :
    ResetTxn :=
  ⟨resetToken.id, resetToken.userId, newPassword, salt, now, .setPassword, [], [], []⟩

/-- What a transaction's step comes to. -/
inductive ResetProgress
  | goes (locks : Locks AccountRow) (x : ResetTxn)
  | commits
  | rollsBack

section
variable (crypt : String → String → String)

/-- What the transaction's commit makes of the database. -/
def ResetTxn.apply (x : ResetTxn) (db : AuthDb) : AuthDb :=
  ((db.setPasswordWhere (fun u => decide (u.idPengguna ∈ x.users))
      (crypt x.newPassword x.salt)).useWhere
    (fun r => decide (r.id ∈ x.resetTokens)) x.now).revokeWhere
      (fun s => decide (s.id ∈ x.sessions)) x.now

/-- The next step of a transaction; `none` while it waits for a lock. -/
def ResetTxn.next (db : AuthDb) (locks : Locks AccountRow) (t : Nat) (x : ResetTxn) :
    Option ResetProgress :=
  match x.point with
  | .setPassword =>
    some (.goes locks { x with
      point := .settingPassword
        (.start (fun u => .user u.idPengguna) db.users.rows (UserRow.has x.userID)) })
  | .settingPassword ⟨_, []⟩ =>
    -- `RowsAffected` is 0: `ErrNotFound`
    some (if x.users = [] then .rollsBack else .goes locks { x with point := .useToken })
  | .settingPassword ⟨cond, k :: todo⟩ =>
    (Scan.visit (fun u => .user u.idPengguna) db.users.rows cond locks t k).map fun out =>
      .goes out.1 { x with
        point := .settingPassword ⟨cond, todo⟩
        users := x.users ++ out.2.toList.map (·.idPengguna) }
  | .useToken =>
    some (.goes locks { x with
      point := .usingToken (.start (fun r => .resetToken r.id) db.passwordResetTokens.rows
        (PasswordResetTokenRow.unused x.resetID)) })
  | .usingToken ⟨_, []⟩ =>
    -- `RowsAffected` is 0: `ErrInvalidInput`
    some (if x.resetTokens = [] then .rollsBack
      else .goes locks { x with point := .revokeSessions })
  | .usingToken ⟨cond, k :: todo⟩ =>
    (Scan.visit (fun r => .resetToken r.id) db.passwordResetTokens.rows cond locks t k).map
      fun out => .goes out.1 { x with
        point := .usingToken ⟨cond, todo⟩
        resetTokens := x.resetTokens ++ out.2.toList.map (·.id) }
  | .revokeSessions =>
    some (.goes locks { x with
      point := .revokingSessions (.start (fun s => .session s.id) db.accessSessions.rows
        (SessionRow.unrevoked x.userID)) })
  | .revokingSessions ⟨_, []⟩ => some (.goes locks { x with point := .commit })
  | .revokingSessions ⟨cond, k :: todo⟩ =>
    (Scan.visit (fun s => .session s.id) db.accessSessions.rows cond locks t k).map fun out =>
      .goes out.1 { x with
        point := .revokingSessions ⟨cond, todo⟩
        sessions := x.sessions ++ out.2.toList.map (·.id) }
  | .commit => some .commits

/-! ## The system -/

/-- A call that has looked its token up, and one whose transaction runs. -/
inductive ResetCall
  | checked (resetToken : PasswordResetTokenRow) (newPassword : String)
  | running (x : ResetTxn)

/-- `succeeded` are the transactions of the calls that have returned without error. -/
structure ResetSystem where
  db : AuthDb
  locks : Locks AccountRow
  calls : Dict Nat ResetCall
  succeeded : List ResetTxn

inductive ResetAction
  | check (t : Nat) (newPassword confirmPassword : String) (now : Time)
  | begin (t : Nat) (salt : String) (now : Time)
  | next (t : Nat)
  /-- An error, a deadlock, a lost connection, a cancelled context. -/
  | fail (t : Nat)

namespace ResetSystem

def idle (db : AuthDb) : ResetSystem := ⟨db, .free, ∅, []⟩

/-- The call ends: its locks are free again. -/
def finish (s : ResetSystem) (t : Nat) : ResetSystem :=
  { s with locks := s.locks.release t, calls := s.calls.erase t }

section
variable (hashToken : String → String) (token : String)

/-- All calls are with the one `token`. -/
def step (s : ResetSystem) : ResetAction → Option ResetSystem
  | .check t newPassword confirmPassword now =>
    if (s.calls.lookup t).isSome then none
    else
      match checkPasswordReset hashToken s.db token newPassword confirmPassword now with
      | .error _ => some s
      | .ok (resetToken, newPassword) =>
        some { s with calls := s.calls.insert t (.checked resetToken newPassword) }
  | .begin t salt now =>
    match s.calls.lookup t with
    | some (.checked resetToken newPassword) =>
      some { s with
        calls := s.calls.insert t (.running (.start resetToken newPassword salt now)) }
    | _ => none
  | .next t =>
    match s.calls.lookup t with
    | some (.running x) =>
      match x.next s.db s.locks t with
      | none => none
      | some (.goes locks x') =>
        some { s with locks, calls := s.calls.insert t (.running x') }
      | some .commits =>
        some { s.finish t with db := x.apply crypt s.db, succeeded := x :: s.succeeded }
      | some .rollsBack => some (s.finish t)
    | _ => none
  | .fail t => if (s.calls.lookup t).isSome then some (s.finish t) else none

end

end ResetSystem

end

end HashBox.Api
