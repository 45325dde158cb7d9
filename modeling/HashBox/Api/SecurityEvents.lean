import HashBox.Lib.Dict
import HashBox.Vault.Types

/-!
# Security events (`internal/service/security_monitor_service.go`)

`normalizeSecurityEvent`, and the columns of `security_events` that its texts go to. A Go string is
a sequence of bytes: what the function is given is valid UTF-8, a `String`, and what it returns is
whatever bytes its cuts leave.
-/

namespace HashBox.Api

open Vault (trimSpace)
export HashBox.Vault (Time)

/-- A value of an `any`. -/
inductive AnyValue (α : Type _)
  | bool (b : Bool)
  | other (value : α)
deriving DecidableEq, Repr

/-- `domain.SecurityEventInput`, with texts in `σ`. -/
structure SecurityEventInput (σ α : Type _) where
  runID : σ
  eventType : σ
  source : σ
  severity : σ
  outcome : σ
  userID : σ
  clientIP : σ
  method : σ
  path : σ
  statusCode : Int
  errorCode : σ
  phase : σ
  step : σ
  title : σ
  detail : σ
  /-- `none` is the nil map -/
  details : Option (Dict String (AnyValue α))
  /-- `none` is the zero time -/
  occurredAt : Option Time

def maxSecurityDetailBytes : Nat := 16 * 1024

/-- A text of `uuidPattern`. -/
def uuidPattern (chars : List Char) : Bool :=
  let groups := chars.splitOn '-'
  groups.map List.length == [8, 4, 4, 4, 12] && groups.all fun group => group.all fun c =>
    c.isDigit || ('a' ≤ c && c ≤ 'f') || ('A' ≤ c && c ≤ 'F')

def isUUID (value : String) : Bool := uuidPattern (trimSpace value).toList

def validOptionalUUID (value : String) : String :=
  let value := trimSpace value
  if value = "" ∨ ¬ isUUID value then "" else value

def truncateSecurityString (value : ByteArray) (max : Nat) : ByteArray :=
  if value.size ≤ max then value else value.extract 0 max

/-- `if value == "" { value = fallback }`. -/
def orText (value : ByteArray) (fallback : String) : ByteArray :=
  if value.size = 0 then fallback.toUTF8 else value

/-- `details` as the event keeps them; `marshal` is `json.Marshal`. -/
def normalizeDetails {α : Type _} (marshal : Dict String (AnyValue α) → Option ByteArray)
    (details : Option (Dict String (AnyValue α))) : Dict String (AnyValue α) :=
  match details with
  | none => ∅
  | some details =>
    match marshal details with
    | none => AList.singleton "details_truncated" (.bool true)
    | some encoded =>
      if encoded.size > maxSecurityDetailBytes then
        AList.singleton "details_truncated" (.bool true)
      else details

section

variable {α : Type _} (toUpper : String → String)
  (marshal : Dict String (AnyValue α) → Option ByteArray) (now : Time)

def normalizeSecurityEvent (input : SecurityEventInput String α) :
    SecurityEventInput ByteArray α where
  eventType := orText (truncateSecurityString (trimSpace input.eventType).toUTF8 60)
    "SECURITY_EVENT"
  source := orText (truncateSecurityString (trimSpace input.source).toUTF8 30) "api"
  severity := orText (truncateSecurityString (trimSpace input.severity).toUTF8 20) "medium"
  outcome := orText (truncateSecurityString (trimSpace input.outcome).toUTF8 20) "detected"
  runID := (validOptionalUUID input.runID).toUTF8
  userID := (validOptionalUUID input.userID).toUTF8
  clientIP := truncateSecurityString (trimSpace input.clientIP).toUTF8 64
  method := truncateSecurityString (toUpper (trimSpace input.method)).toUTF8 10
  path := truncateSecurityString (trimSpace input.path).toUTF8 255
  statusCode := input.statusCode
  errorCode := truncateSecurityString (trimSpace input.errorCode).toUTF8 100
  phase := truncateSecurityString (trimSpace input.phase).toUTF8 30
  step := truncateSecurityString (trimSpace input.step).toUTF8 100
  title := truncateSecurityString (trimSpace input.title).toUTF8 255
  detail := truncateSecurityString (trimSpace input.detail).toUTF8 4000
  details := some (normalizeDetails marshal input.details)
  occurredAt := some (input.occurredAt.getD now)

end

/-! ## The table -/

/-- The types of the text columns; `VARCHAR(n)` counts characters. -/
inductive ColumnType
  | varchar (n : Nat)
  | text
  | inet
  | uuid
deriving DecidableEq, Repr

/-- What a text must be for its column; the empty text is stored as NULL in a `uuid` column. -/
def ColumnType.fits : ColumnType → String → Prop
  | .varchar n, value => value.length ≤ n
  | .uuid, value => value = "" ∨ isUUID value
  | _, _ => True

/-- The text columns of `security_events`, each with what `Record` inserts there. -/
def securityEventColumns (σ α : Type _) : List (ColumnType × (SecurityEventInput σ α → σ)) :=
  [(.uuid, SecurityEventInput.runID), (.varchar 60, SecurityEventInput.eventType),
    (.varchar 30, SecurityEventInput.source), (.varchar 20, SecurityEventInput.severity),
    (.varchar 20, SecurityEventInput.outcome), (.uuid, SecurityEventInput.userID),
    (.inet, SecurityEventInput.clientIP), (.varchar 10, SecurityEventInput.method),
    (.varchar 255, SecurityEventInput.path), (.varchar 100, SecurityEventInput.errorCode),
    (.varchar 30, SecurityEventInput.phase), (.varchar 100, SecurityEventInput.step),
    (.varchar 255, SecurityEventInput.title), (.text, SecurityEventInput.detail)]

/-- Every text is valid UTF-8 and fits its column. -/
def SecurityEventInput.Storable {α : Type _} (input : SecurityEventInput ByteArray α) : Prop :=
  ∀ c ∈ securityEventColumns ByteArray α, ∃ value : String,
    c.2 input = value.toUTF8 ∧ c.1.fits value

end HashBox.Api
