import HashBox.Lib.Split

/-!
# Server-sent events (`security_monitor_handler.go`, `securitylab_handler.go`, `sse.ts`)

What the two handlers of the API write, and the `parseSSE` of the web client that reads it, in both
its versions. A JavaScript string is a sequence of UTF-16 code units; the client's `TextDecoder`
turns what was written into one.
-/

namespace HashBox.Web

/-! ## JavaScript strings -/

abbrev JsString := List UInt16

/-- The code units of a character: one, or a pair of surrogates. -/
def utf16 (c : Char) : List UInt16 :=
  if c.toNat < 0x10000 then [UInt16.ofNat c.toNat]
  else
    [UInt16.ofNat (0xD800 + (c.toNat - 0x10000) / 0x400),
      UInt16.ofNat (0xDC00 + (c.toNat - 0x10000) % 0x400)]

def js (s : String) : JsString := s.toList.flatMap utf16

/-- White space and line terminators. -/
def isSpace (u : UInt16) : Bool :=
  let n := u.toNat
  (9 ≤ n && n ≤ 13) || n == 0x20 || n == 0xA0 || n == 0x1680 || (0x2000 ≤ n && n ≤ 0x200A) ||
    n == 0x2028 || n == 0x2029 || n == 0x202F || n == 0x205F || n == 0x3000 || n == 0xFEFF

/-- `String.prototype.trim`. -/
def trim (s : JsString) : JsString := ((s.dropWhile isSpace).reverse.dropWhile isSpace).reverse

/-- `Array.prototype.join`. -/
def join (lines : List JsString) (sep : JsString) : JsString := sep.intercalate lines

/-! ## The server -/

/-- `"event: %s\ndata: %s\n\n"`. -/
def writeFrame (event data : String) : String := "event: " ++ event ++ "\ndata: " ++ data ++ "\n\n"

def heartbeat : String := ": heartbeat\n\n"

/-- The event names that the handlers give. -/
def serverEvents : List String := ["security_event", "phase", "error", "summary", "done"]

/-- An event name and the JSON object that goes with it, on one line. -/
structure ServerFrame where
  event : String
  data : String
  event_line : '\n' ∉ event.toList
  event_trim : trim (js event) = js event
  data_line : '\n' ∉ data.toList
  data_object : ∃ fields : String, data = "\x7b" ++ fields ++ "\x7d"

/-- What a handler writes at one time. -/
inductive Written
  | frame (f : ServerFrame)
  | heartbeat

def Written.text : Written → String
  | .frame f => writeFrame f.event f.data
  | .heartbeat => Web.heartbeat

/-! ## The client -/

structure ParsedSSEFrame where
  event : JsString
  data : JsString
deriving DecidableEq, Repr

structure ParsedSSE where
  frames : List ParsedSSEFrame
  rest : JsString
deriving DecidableEq, Repr

/-- `event` and `dataLines` while the lines of a segment are read. -/
structure SegmentState where
  event : JsString
  dataLines : List JsString

/-- `parseSSE` over the body of its loop on the lines of a segment. -/
def parseSegments (readLine : SegmentState → JsString → SegmentState) (buffer : JsString) :
    ParsedSSE :=
  let segments := Split.split (js "\n\n") buffer
  let rest := segments.getLast?.getD []
  let frames := segments.dropLast.filterMap fun segment =>
    let s := (Split.split (js "\n") segment).foldl readLine ⟨js "message", []⟩
    if s.dataLines.length > 0 then some ⟨s.event, join s.dataLines (js "\n")⟩ else none
  ⟨frames, rest⟩

/-- `line.startsWith(name)`. -/
def startsWith (line name : JsString) : Bool := name.isPrefixOf line

/-- The loop body of `sse.ts`: two `if` statements. -/
def readLine (s : SegmentState) (line : JsString) : SegmentState :=
  let s :=
    if startsWith line (js "event:") then
      { s with event := trim (line.drop (js "event:").length) }
    else s
  if startsWith line (js "data:") then
    { s with dataLines := s.dataLines ++ [trim (line.drop (js "data:").length)] }
  else s

/-- `parseSSE` of `sse.ts`. -/
def parseSSE (buffer : JsString) : ParsedSSE := parseSegments readLine buffer

namespace SecurityLabStream

/-- The loop body of `useSecurityLabStream.ts`: an `if` and an `else if`. -/
def readLine (s : SegmentState) (line : JsString) : SegmentState :=
  if startsWith line (js "event:") then
    { s with event := trim (line.drop (js "event:").length) }
  else if startsWith line (js "data:") then
    { s with dataLines := s.dataLines ++ [trim (line.drop (js "data:").length)] }
  else s

/-- `parseSSE` of `useSecurityLabStream.ts`. -/
def parseSSE (buffer : JsString) : ParsedSSE := parseSegments readLine buffer

end SecurityLabStream

/-- The loop of the readers over the arriving fragments, from a `buffer`: the frames of all rounds,
and the buffer after the last. -/
def receive (parseSSE : JsString → ParsedSSE) (buffer : JsString) : List JsString → ParsedSSE
  | [] => ⟨[], buffer⟩
  | fragment :: fragments =>
    let parsed := parseSSE (buffer ++ fragment)
    let later := receive parseSSE parsed.rest fragments
    ⟨parsed.frames ++ later.frames, later.rest⟩

end HashBox.Web
