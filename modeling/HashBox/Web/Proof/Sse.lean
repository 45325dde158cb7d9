import HashBox.Web.Sse

/-!
# The SSE round trip

Feeding fragments to a `parseSSE` gives the frames of the segments of the whole text
(`receive_eq`, from `Split.feed_eq`); what the server writes is cut into exactly its frames and
comments (`cut_written`), and a frame is read as it was written (`readSegment_frame`).
-/

namespace HashBox.Web

open Split

/-! ## JavaScript strings -/

@[simp] theorem js_append (s t : String) : js (s ++ t) = js s ++ js t := by
  simp only [js, String.toList_append, List.flatMap_append]

/-- A line feed is the code unit of no other character. -/
theorem lf_mem_utf16 {c : Char} (h : 10 ∈ utf16 c) : c = '\n' := by
  unfold utf16 at h
  split at h
  · next hc =>
    rw [List.mem_singleton] at h
    have hn := congrArg UInt16.toNat h
    rw [UInt16.toNat_ofNat', Nat.mod_eq_of_lt hc] at hn
    exact Char.toNat_inj.1 hn.symm
  · next hc =>
    have hlt : c.toNat < 0x110000 :=
      c.valid.elim (fun h => Nat.lt_trans h (by decide)) fun h => h.2
    have hten : UInt16.toNat 10 = 10 := rfl
    simp only [List.mem_cons, List.not_mem_nil, or_false] at h
    rcases h with h | h <;>
    · have hn := congrArg UInt16.toNat h
      rw [UInt16.toNat_ofNat'] at hn
      omega

theorem lf_mem_js {s : String} (h : '\n' ∉ s.toList) : 10 ∉ js s := by
  intro hm
  obtain ⟨c, hc, hu⟩ := List.mem_flatMap.1 hm
  exact h (lf_mem_utf16 hu ▸ hc)

theorem js_lf : js "\n" = [10] := by decide

theorem js_blank : js "\n\n" = [10, 10] := by decide

theorem trim_eq {s : JsString} (hfirst : ∀ u ∈ s.head?, isSpace u = false)
    (hlast : ∀ u ∈ s.getLast?, isSpace u = false) : trim s = s := by
  have hdrop : ∀ {l : JsString}, (∀ u ∈ l.head?, isSpace u = false) → l.dropWhile isSpace = l := by
    intro l h
    cases l with
    | nil => rfl
    | cons u l => rw [List.dropWhile_cons_of_neg (by rw [h u rfl]; exact Bool.false_ne_true)]
  rw [trim, hdrop hfirst, hdrop (by rwa [List.head?_reverse]), List.reverse_reverse]

theorem trim_space (s : JsString) : trim (32 :: s) = trim s := by
  rw [trim, List.dropWhile_cons_of_pos (by decide), trim]

theorem ServerFrame.data_trim (f : ServerFrame) : trim (js f.data) = js f.data := by
  obtain ⟨fields, hdata⟩ := f.data_object
  have hopen : js "\x7b" = [123] := by decide
  have hclose : js "\x7d" = [125] := by decide
  refine trim_eq (fun u hu => ?_) fun u hu => ?_
  · rw [hdata, js_append, js_append, hopen] at hu
    cases hu
    decide
  · rw [hdata, js_append, hclose, List.getLast?_concat] at hu
    cases hu
    decide

/-- Every name of the handlers may be the name of a `ServerFrame`. -/
theorem serverEvents_frame : ∀ event ∈ serverEvents,
    '\n' ∉ event.toList ∧ trim (js event) = js event := by decide

/-! ## One segment -/

def readSegment (readLine : SegmentState → JsString → SegmentState) (segment : JsString) :
    Option ParsedSSEFrame :=
  let s := (split (js "\n") segment).foldl readLine ⟨js "message", []⟩
  if s.dataLines.length > 0 then some ⟨s.event, join s.dataLines (js "\n")⟩ else none

theorem parseSegments_eq (readLine : SegmentState → JsString → SegmentState) (buffer : JsString) :
    parseSegments readLine buffer = ⟨(cut (js "\n\n") buffer).1.filterMap (readSegment readLine),
      (cut (js "\n\n") buffer).2⟩ := by
  rw [parseSegments, getLast?_split, dropLast_split]
  rfl

/-- **Fragments**: the frames are those of the whole text. -/
theorem receive_eq (readLine : SegmentState → JsString → SegmentState)
    (fragments : List JsString) : ∀ buffer,
    receive (parseSegments readLine) buffer fragments =
      ⟨(feed (js "\n\n") buffer fragments).1.filterMap (readSegment readLine),
        (feed (js "\n\n") buffer fragments).2⟩ := by
  induction fragments with
  | nil => intro buffer; rfl
  | cons fragment fragments ih =>
    intro buffer
    rw [receive, parseSegments_eq, ih]
    simp only [feed, List.filterMap_append]

/-! ## The two readers -/

/-- No line starts with both field names, so the `else` makes no difference. -/
theorem readLine_eq (s : SegmentState) (line : JsString) :
    SecurityLabStream.readLine s line = readLine s line := by
  unfold SecurityLabStream.readLine readLine
  by_cases he : startsWith line (js "event:")
  · have hd : startsWith line (js "data:") = false := by
      rw [startsWith, show js "event:" = [101, 118, 101, 110, 116, 58] by decide,
        List.isPrefixOf_iff_prefix] at he
      obtain ⟨t, rfl⟩ := he
      rw [startsWith, show js "data:" = [100, 97, 116, 97, 58] by decide]
      rfl
    simp [he, hd]
  · simp [he]

theorem parseSSE_eq (buffer : JsString) : SecurityLabStream.parseSSE buffer = parseSSE buffer := by
  rw [SecurityLabStream.parseSSE, parseSSE, funext fun s => funext fun line => readLine_eq s line]

/-! ## What the server writes -/

/-- The text of a frame or a comment without the blank line. -/
def Written.segment : Written → JsString
  | .frame f => js "event: " ++ js f.event ++ 10 :: (js "data: " ++ js f.data)
  | .heartbeat => js ": heartbeat"

theorem Written.js_text (w : Written) : js w.text = w.segment ++ js "\n\n" := by
  cases w with
  | frame f =>
    simp only [text, writeFrame, segment, js_append]
    rw [show js "\ndata: " = 10 :: js "data: " by decide]
    simp
  | heartbeat => decide

theorem cut_line {sep a : JsString} (hsep : sep.head? = some 10) (ha : 10 ∉ a) (t : JsString) :
    cut sep (a ++ t) = before a (cut sep t) := by
  refine cut_append_free (fun c hc hlf => ?_) (fun hnil => ?_) t
  · cases hsep.symm.trans hlf
    exact ha hc
  · rw [hnil] at hsep
    cases hsep

theorem ServerFrame.lf_eventLine (f : ServerFrame) : 10 ∉ js "event: " ++ js f.event :=
  List.not_mem_append (by decide) (lf_mem_js f.event_line)

theorem ServerFrame.lf_dataLine (f : ServerFrame) : 10 ∉ js "data: " ++ js f.data :=
  List.not_mem_append (by decide) (lf_mem_js f.data_line)

theorem Written.cut_segment (w : Written) (t : JsString) :
    cut (js "\n\n") (w.segment ++ (js "\n\n" ++ t)) =
      (w.segment :: (cut (js "\n\n") t).1, (cut (js "\n\n") t).2) := by
  have hsep : js "\n\n" ≠ [] := by decide
  have hhead : (js "\n\n").head? = some 10 := by rw [js_blank]; rfl
  cases w with
  | heartbeat =>
    rw [segment, cut_line hhead (by decide), cut_sep hsep, before, List.append_nil]
  | frame f =>
    have hbetween : ¬ js "\n\n" <+: 10 :: (js "data: " ++ js f.data ++ (js "\n\n" ++ t)) := by
      rw [js_blank, show js "data: " = [100, 97, 116, 97, 58, 32] by decide]
      rintro ⟨u, hu⟩
      cases hu
    rw [segment, List.append_assoc, cut_line hhead f.lf_eventLine, List.cons_append,
      cut_cons hbetween, cut_line hhead f.lf_dataLine, cut_sep hsep]
    simp [before]

/-- **The writings are the segments.** -/
theorem cut_written (written : List Written) :
    cut (js "\n\n") (js (String.join (written.map Written.text))) =
      (written.map Written.segment, []) := by
  induction written with
  | nil => rfl
  | cons w written ih =>
    have hjoin : String.join ((w :: written).map Written.text) =
        w.text ++ String.join (written.map Written.text) := by simp
    rw [hjoin, js_append, w.js_text, List.append_assoc, w.cut_segment, ih]
    rfl

/-! ## What the client reads -/

theorem startsWith_append (name rest : JsString) : startsWith (name ++ rest) name = true :=
  List.isPrefixOf_iff_prefix.2 (List.prefix_append name rest)

theorem readLine_event (s : SegmentState) (value : JsString) :
    readLine s (js "event: " ++ value) = { s with event := trim value } := by
  have hline : js "event: " ++ value = js "event:" ++ 32 :: value := rfl
  have hdata : startsWith (js "event:" ++ 32 :: value) (js "data:") = false := rfl
  rw [hline, readLine, startsWith_append, hdata, List.drop_left, trim_space]
  rfl

theorem readLine_data (s : SegmentState) (value : JsString) :
    readLine s (js "data: " ++ value) = { s with dataLines := s.dataLines ++ [trim value] } := by
  have hline : js "data: " ++ value = js "data:" ++ 32 :: value := rfl
  have hevent : startsWith (js "data:" ++ 32 :: value) (js "event:") = false := rfl
  rw [hline, readLine, startsWith_append, hevent, List.drop_left, trim_space]
  rfl

/-- **A frame is read as it was written.** -/
theorem readSegment_frame (f : ServerFrame) :
    readSegment readLine (Written.frame f).segment = some ⟨js f.event, js f.data⟩ := by
  have hlf : js "\n" ≠ [] := by decide
  have hhead : (js "\n").head? = some 10 := by rw [js_lf]; rfl
  have hlines : split (js "\n") (Written.frame f).segment =
      [js "event: " ++ js f.event, js "data: " ++ js f.data] := by
    have hlast := cut_line hhead f.lf_dataLine []
    rw [List.append_nil, cut_nil] at hlast
    rw [split, Written.segment, cut_line hhead f.lf_eventLine,
      show ∀ l : JsString, 10 :: l = js "\n" ++ l from fun _ => rfl, cut_sep hlf, hlast]
    simp [before]
  rw [readSegment, hlines, List.foldl_cons, List.foldl_cons, List.foldl_nil, readLine_event,
    readLine_data, f.event_trim, f.data_trim]
  simp [join]

theorem readSegment_heartbeat : readSegment readLine Written.heartbeat.segment = none := by
  decide

/-- The pair that a writing gives the client. -/
def Written.frame? : Written → Option ParsedSSEFrame
  | .frame f => some ⟨js f.event, js f.data⟩
  | .heartbeat => none

theorem readSegment_written (w : Written) : readSegment readLine w.segment = w.frame? := by
  cases w with
  | frame f => exact readSegment_frame f
  | heartbeat => exact readSegment_heartbeat

/-- **The SSE round trip**, for every way to cut the text; and the two readers are equal. -/
theorem sse_round_trip :
    (∀ (written : List Written) (fragments : List JsString),
      fragments.flatten = js (String.join (written.map Written.text)) →
        receive parseSSE [] fragments = ⟨written.filterMap Written.frame?, []⟩) ∧
    ∀ buffer, SecurityLabStream.parseSSE buffer = parseSSE buffer := by
  refine ⟨fun written fragments h => ?_, parseSSE_eq⟩
  rw [show parseSSE = parseSegments readLine from rfl, receive_eq,
    feed_eq fragments [] cut_nil, List.nil_append, h, cut_written, List.filterMap_map]
  exact congrArg (ParsedSSE.mk · []) (List.filterMap_congr fun w _ => readSegment_written w)

/-- A frame, and a comment after it. -/
def sampleWritten : List Written :=
  [.frame
    { event := "phase"
      data := "\x7b\"step\":\"upload\"\x7d"
      event_line := (serverEvents_frame "phase" (by decide)).1
      event_trim := (serverEvents_frame "phase" (by decide)).2
      data_line := by decide
      data_object := ⟨"\"step\":\"upload\"", by decide⟩ },
    .heartbeat]

/-- The first fragment ends between the two line feeds after the frame. -/
theorem sse_round_trip_sample :
    receive parseSSE []
        [js "event: phase\ndata: \x7b\"step\":\"upload\"\x7d\n", js "\n: heartbeat\n\n"] =
      ⟨[⟨js "phase", js "\x7b\"step\":\"upload\"\x7d"⟩], []⟩ :=
  sse_round_trip.1 sampleWritten _ (by decide)

end HashBox.Web
