import HashBox.Lib.Runs
import HashBox.Api.Directory
import HashBox.Api.File

/-!
# The API's mutating calls

`Call` is what a user can ask for, with arbitrary ids; `Event` adds the reaper of stale pending
rows. An upload is two calls, so that other calls may come while its bytes go to Vault, and so that
one that never finishes leaves its pending row. An error leaves the database as it was.
-/

namespace HashBox.Api

inductive Call
  | createDirectory (name : String) (parentID : Option Uuid) (newID : Uuid)
  | softDeleteDirectory (directoryID : Uuid)
  | restoreDirectory (directoryID : Uuid)
  | permanentDeleteDirectory (directoryID : Uuid)
  | starDirectory (directoryID : Uuid) (starred : Bool)
  | uploadStart (directoryID : Option Uuid) (fileName mimeType : String) (newID : Uuid)
  | uploadFinish (fileID : Uuid) (answer : Except Error UploadCommitResult)
  | softDeleteFile (fileID : Uuid)
  | restoreFile (fileID : Uuid)
  | permanentDeleteFile (fileID : Uuid)
  | starFile (fileID : Uuid) (starred : Bool)

inductive Event
  | call (userID : Uuid) (c : Call)
  | expireStalePending (olderThan : Time)

/-- The database after a transaction. -/
def Db.after {α : Type} (db : Db) : Except Error (Db × α) → Db
  | .ok (db', _) => db'
  | .error _ => db

section
variable (lower : String → String)

/-- The database after a call at the time `now`. -/
def runCall (db : Db) (userID : Uuid) (now : Time) : Call → Db
  | .createDirectory name parentID newID =>
    db.after (serviceCreateDirectory lower db userID name parentID newID now)
  | .softDeleteDirectory id => db.after (softDeleteSubtree db id userID now)
  | .restoreDirectory id => db.after (restoreSubtree lower db id userID)
  | .permanentDeleteDirectory id =>
    match permanentDeleteSubtree db id userID now with
    | .ok db' => db'
    | .error _ => db
  | .starDirectory id starred => db.after (setDirectoryStarred db id userID starred now)
  | .uploadStart directoryID fileName mimeType newID =>
    db.after (uploadStart lower db userID directoryID fileName mimeType newID now)
  | .uploadFinish id answer => (uploadFinish db userID id answer now).1
  | .softDeleteFile id => db.after (softDeleteFile db id userID now)
  | .restoreFile id => db.after (restoreFile lower db id userID)
  | .permanentDeleteFile id =>
    match permanentDeleteFile db id userID now with
    | .ok db' => db'
    | .error _ => db
  | .starFile id starred => db.after (setFileStarred db id userID starred now)

/-- One event, with the time of its transaction. -/
def step (db : Db) : Event × Time → Option Db
  | (.call userID c, now) => some (runCall lower db userID now c)
  | (.expireStalePending olderThan, _) => some (expireStalePending db olderThan)

/-- What calls and the reaper make of an empty database. -/
def Reachable : Db → Prop := Runs.Reach (step lower) (fun _ _ => True) (· = Db.empty)

end

end HashBox.Api
