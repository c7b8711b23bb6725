import Xzero.Http.FastCgi.Generator
import Xzero.Http.Http1.Grammar
import Xzero.Http.Http1.Reading

/-!
# The parser of FastCGI responses

`xzero/http/fastcgi/ResponseParser.cc`: what the records of a response have in them is given to an
HTTP parser, record by record, and an empty record ends the message. The contents are used where
they are, in one buffer with the headers and the padding of the records between them.

A reference of the HTTP parser grows with each byte it takes, so a name or a value that begins in
one record and ends in another is reported with what is between them. A header `Transfer-Encoding:
chunked` is not reported, and the HTTP parser ends a message of a known length by itself, so that it
ends twice (`ResponseParser.not_reports`). **A response whose headers say nothing of this kind and
are in the first record is reported as it was sent, however the rest is cut**
(`ResponseParser.reports_of_headFirst`).
-/

namespace Xzero.Http.FastCgi

open Http1 List Util Parser Function Generator RecordType Record

/-- What the parser calls. -/
inductive ResponseCall
  /-- `onCreateChannel_`, for the listener of a request. -/
  | createChannel (requestId : UInt16)
  | unknownPacket (requestId : UInt16) (type : UInt8)
  | stdErr (requestId : UInt16) (content : Bytes)
  | event (requestId : UInt16) (e : Event)
  deriving DecidableEq, Repr

/-- `ResponseParser::StreamState`. -/
structure ResponseStream where
  totalBytesReceived : ℕ := 0
  contentFullyReceived : Bool := false
  http1Parser : Parser := .init .message

/-- `ResponseParser`, with its `streams_`. -/
abbrev ResponseParser := UInt16 → Option ResponseStream

namespace ResponseParser

def getStream (p : ResponseParser) (id : UInt16) : List ResponseCall × ResponseStream :=
  match p id with
  | some stream => ([], stream)
  | none => ([.createChannel id], {})

/-- `streamStdOut`, of the record at an offset of the buffer. -/
def streamStdOut (p : ResponseParser) (chunk : Bytes) (offset : ℕ) (record : Record) :
    Trace ResponseCall ResponseParser :=
  let id := record.requestId
  let s := (p.getStream id).2
  let stream := { s with
    totalBytesReceived := s.totalBytesReceived + record.size
    contentFullyReceived := s.contentFullyReceived || record.content.length = 0 }
  let start := offset + 8
  let t := stream.http1Parser.call (chunk.take (start + record.content.length)) start
  let calls := (p.getStream id).1 ++ t.1.map (.event id)
  match t.2 with
  | none => (calls, none)
  | some http1Parser =>
    (calls ++ if stream.contentFullyReceived then [.event id .messageEnd] else [],
      some (update p id (some { stream with http1Parser := http1Parser })))

def streamStdErr (p : ResponseParser) (record : Record) : Trace ResponseCall ResponseParser :=
  let s := (p.getStream record.requestId).2
  ((p.getStream record.requestId).1 ++ [.stdErr record.requestId record.content],
    some (update p record.requestId
      (some { s with totalBytesReceived := s.totalBytesReceived + record.size })))

def process (p : ResponseParser) (chunk : Bytes) (offset : ℕ) (record : Record) :
    Trace ResponseCall ResponseParser :=
  if record.type = stdOut.code then p.streamStdOut chunk offset record
  else if record.type = stdErr.code then p.streamStdErr record
  else ([.unknownPacket record.requestId record.type], some p)

/-- The loop of `parseFragment`, over records from an offset on. -/
def processAll (chunk : Bytes) (offset : ℕ) (p : ResponseParser) :
    List Record → Trace ResponseCall ResponseParser
  | [] => .pure p
  | record :: rs => (p.process chunk offset record).bind fun p' ↦
    processAll chunk (offset + record.size) p' rs

def parseFragment (p : ResponseParser) (chunk : Bytes) : Trace ResponseCall ResponseParser :=
  processAll chunk 0 p (decoder.drain chunk).1

end ResponseParser

/-! ### Responses -/

/-- A response as a CGI program writes it. -/
structure CgiResponse where
  status : Bytes
  headers : List HeaderField
  body : Bytes

namespace CgiResponse

def fields (r : CgiResponse) : List HeaderField :=
  ⟨ofString "Status", r.status, false⟩ :: r.headers

def bytes (r : CgiResponse) : Bytes := r.fields.flatMap headerLine ++ CRLF ++ r.body

/-- The headers are such that may be in a message, and the length is the right one if it is given.
-/
structure WellFormed (r : CgiResponse) : Prop where
  fields : ∀ header ∈ r.fields, Parser.IsWord isToken header.name ∧ Parser.IsValue header.value
  length : ∀ header ∈ r.fields, Buffer.iequals header.name (ascii "Content-Length".toList) = true →
      header.value = decimal r.body.length

/-- The response is cut into records of standard output, of which none is empty. -/
structure Cut (r : CgiResponse) (id : UInt16) (rs : List Record) : Prop where
  each : ∀ record ∈ rs, record.type = stdOut.code ∧ record.requestId = id ∧ record.content ≠ []
  content : rs.flatMap content = r.bytes

end CgiResponse

/-- What is sent: the records, and an empty one. -/
def wire (id : UInt16) (rs : List Record) : Bytes :=
  (rs ++ [emptyRecord .stdOut id]).flatMap bytes

namespace ResponseParser

/-- The response is reported as it was sent. -/
def Reports (r : CgiResponse) (id : UInt16) (t : Trace ResponseCall ResponseParser) : Prop :=
  t.2.isSome = true ∧ ∃ cs : List Bytes, cs.flatten = r.body ∧
    t.1 = .createChannel id :: (.messageBegin :: (headerEvents r.fields ++
      .headerEnd :: (cs.map .content ++ [.messageEnd]))).map (.event id)

/-- The headers are in the first record, and do not say anything about the content. -/
structure HeadFirst (r : CgiResponse) (rs : List Record) : Prop where
  plain : ∀ header ∈ r.fields, Parser.IsPlain header
  first : ∃ record rest more, rs = record :: rest ∧
    record.content = r.fields.flatMap headerLine ++ CR :: LF :: more

/-! ### The HTTP parser on a record -/

/-- Content comes, and has no end. -/
structure Endless (q : Parser) : Prop where
  mode_eq : q.mode = .message
  state : q.state = .contentEndless ∨
    q.state = .contentBegin ∧ q.chunked = false ∧ q.contentLength.slt 0 = true

section

variable {chunk tail data w : Bytes} {offset pos stop : ℕ} {rs : List Record} {record : Record}
  {id : UInt16}
  {p : ResponseParser} {q q' : Parser} {es : List Event}
  {calls : List ResponseCall} {r : CgiResponse}

theorem call_of_reads (hlength : data.length ≤ stop)
    (h : Parser.Reads data (q, pos) es (q', stop)) (hmode : q'.mode = .message) :
    q.call data pos = (es, some q') := by
  have hloop := h.loop_eq (loop_of_le hlength)
  rw [append_nil] at hloop
  rw [Parser.call, Parser.parseFragment, hloop]
  simp only [hmode, ne_eq, not_true_eq_false, and_false, if_false]

theorem reads_endless (hq : Endless q) (hdata : data.drop pos = w) :
    ∃ (q' : Parser) (cs : List Bytes), cs.flatten = w ∧ Endless q' ∧
      Parser.Reads data (q, pos) (cs.map .content) (q', pos + w.length) := by
  rcases w with - | ⟨c, rest⟩
  · exact ⟨q, [], rfl, hq, Reads.refl _ _⟩
  have hlength := congrArg length hdata
  rw [length_drop] at hlength
  have hall {q' : Parser} (hs : q'.state = .contentEndless) :
      Reads data (q', pos) [.content (c :: rest)] (q', pos + (c :: rest).length) := by
    have hreads := reads_of_next hdata (iterate_contentEndless hs)
    rwa [hlength, hdata] at hreads
  rcases hq.state with hs | ⟨hs, hchunked, hslt⟩
  · exact ⟨q, [c :: rest], append_nil _, hq, hall hs⟩
  · refine ⟨{ q with state := .contentEndless }, [c :: rest], append_nil _, ⟨hq.mode_eq, .inl rfl⟩,
      (reads_of_next (n := 0) hdata ?_).trans_nil (hall rfl)⟩
    simp only [Parser.iterate, hs, hchunked, hslt, Bool.false_eq_true, if_false, Bool.not_true]

theorem reads_head {headers : List HeaderField} (hplain : ∀ header ∈ headers, Parser.IsPlain header)
    (hdata : data.drop pos = headers.flatMap headerLine ++ CR :: LF :: w) :
    ∃ (q' : Parser) (cs : List Bytes), cs.flatten = w ∧ Endless q' ∧ Parser.Reads data
      (init .message, pos)
      (.messageBegin :: (headerEvents headers ++ .headerEnd :: cs.map .content))
      (q', pos + (headers.flatMap headerLine ++ CR :: LF :: w).length) := by
  obtain ⟨c, rest, heq, -⟩ := exists_cons_headerLines
    (fun header hmem ↦ (hplain header hmem).name_isWord) (b := CR) (by decide) (LF :: w)
  have hbegin : Reads data (init .message, pos) [.messageBegin]
      ({ init .message with contentLength := -1, state := .headerNameBegin }, pos) :=
    reads_of_next (n := 0) (hdata.trans heq) rfl
  obtain ⟨q₁, hheaders, hq₁⟩ := reads_headers (p := { init .message with
    contentLength := -1, state := .headerNameBegin }) ⟨rfl, rfl, rfl, rfl, rfl⟩ hplain (by decide) hdata
  have hexpected : q₁.isContentExpected = true := by
    rw [isContentExpected, hq₁.length_eq, hq₁.chunked_eq, hq₁.mode_eq]
    rfl
  have hrest := drop_of_append hdata
  have hend := reads_headerEnd hq₁ hexpected hrest
  have hq₂ : Endless { q₁ with state := .contentBegin } :=
    ⟨hq₁.mode_eq, .inr ⟨rfl, hq₁.chunked_eq, by rw [hq₁.length_eq]; rfl⟩⟩
  obtain ⟨q', cs, hcs, hq', hcontent⟩ :=
    reads_endless hq₂ (drop_of_cons (drop_of_cons hrest))
  refine ⟨q', cs, hcs, hq', ?_⟩
  have hlength : pos + (headers.flatMap headerLine ++ CR :: LF :: w).length =
      pos + (headers.flatMap headerLine).length + 1 + 1 + w.length := by
    rw [length_append, length_cons, length_cons]
    omega
  rw [hlength]
  exact hbegin.trans (hheaders.trans (hend.trans hcontent))

/-! ### One stream -/

/-- The stream of a request is open, with this HTTP parser, after calls that open it. -/
def Open (id : UInt16) (p : ResponseParser) (calls : List ResponseCall) (q : Parser) : Prop :=
  ∃ n, p.getStream id = (calls, ⟨n, false, q⟩)

theorem process_stdOut (record : Record) (h : Open id p calls q) (htype : record.type = stdOut.code)
    (hid : record.requestId = id)
    (hcall : q.call (chunk.take (offset + 8 + record.content.length)) (offset + 8) = (es, some q')) :
    ∃ p', p.process chunk offset record = (calls ++
        (es ++ if record.content = [] then [Event.messageEnd] else []).map (.event id), some p') ∧
      (record.content ≠ [] → Open id p' [] q') := by
  subst hid
  obtain ⟨n, hn⟩ := h
  rw [process, if_pos htype, streamStdOut, hn]
  rw [hcall]
  refine ⟨_, Prod.ext ?_ rfl, fun hne ↦ ⟨n + record.size, ?_⟩⟩
  · simp only [Bool.false_or, decide_eq_true_eq, length_eq_zero_iff, map_append,
      append_assoc]
    split <;> rfl
  · rw [getStream, update_self, Bool.false_or,
      decide_eq_false fun h ↦ hne (length_eq_zero_iff.1 h)]

theorem drop_record (h : chunk.drop offset = record.bytes ++ tail) :
    (chunk.take (offset + 8 + record.content.length)).drop (offset + 8) = record.content ∧
      chunk.drop (offset + record.size) = tail := by
  have hcontent : chunk.drop (offset + 8) =
      record.content ++ (replicate record.paddingLength.toNat 0 ++ tail) := by
    rw [← drop_drop, h, bytes, append_assoc, append_assoc]
    rfl
  refine ⟨?_, ?_⟩
  · rw [drop_take, Nat.add_sub_cancel_left, hcontent, take_left]
  · rw [← drop_drop, h, ← length_bytes, drop_left]

theorem processAll_emptyRecord (h : Open id p [] q) (hmode : q.mode = .message) : ∃ p',
    processAll chunk offset p [emptyRecord .stdOut id] = ([.event id .messageEnd], some p') := by
  have hreads := Reads.refl (chunk.take (offset + 8 + 0)) (q, offset + 8)
  obtain ⟨p', hprocess, -⟩ := process_stdOut (emptyRecord .stdOut id) h rfl rfl
    (call_of_reads (length_take_le _ _) hreads hmode)
  rw [processAll, hprocess]
  exact ⟨p', rfl⟩

theorem processAll_endless (h : Open id p [] q) (hq : Endless q)
    (hrs : ∀ record ∈ rs, record.type = stdOut.code ∧ record.requestId = id ∧ record.content ≠ [])
    (hchunk : chunk.drop offset = wire id rs) :
    ∃ (p' : ResponseParser) (cs : List Bytes), cs.flatten = rs.flatMap content ∧
      processAll chunk offset p (rs ++ [emptyRecord .stdOut id]) =
        ((cs.map Event.content ++ [Event.messageEnd]).map (.event id), some p') := by
  induction rs generalizing p q offset with
  | nil =>
    obtain ⟨p', hprocess⟩ := processAll_emptyRecord h hq.mode_eq
    exact ⟨p', [], rfl, hprocess⟩
  | cons record rs ih =>
    obtain ⟨⟨htype, hid, hne⟩, hrs⟩ := forall_mem_cons.1 hrs
    obtain ⟨hdrop, hnext⟩ := drop_record (hchunk.trans flatMap_cons)
    obtain ⟨q', cs, hcs, hq', hreads⟩ := reads_endless hq hdrop
    obtain ⟨p', hprocess, hopen⟩ := process_stdOut record h htype hid
      (call_of_reads (length_take_le _ _) hreads hq'.mode_eq)
    obtain ⟨p'', cs', hcs', hrest⟩ := ih (hopen hne) hq' hrs hnext
    refine ⟨p'', cs ++ cs', ?_, ?_⟩
    · rw [flatten_append, hcs, hcs', flatMap_cons]
    · rw [cons_append, processAll, hprocess, Trace.bind_some, hrest, if_neg hne]
      simp only [nil_append, append_nil, map_append, append_assoc]

theorem parseFragment_wire (id : UInt16) (rs : List Record) (htype : record.type = stdOut.code)
    (hid : record.requestId = id) (hne : record.content ≠ [])
    (hcall : (init .message).call
      ((wire id (record :: rs)).take (0 + 8 + record.content.length)) (0 + 8) = (es, some q)) :
    ∃ p', Open id p' [] q ∧ parseFragment (fun _ ↦ none) (wire id (record :: rs)) =
      .bind (.createChannel id :: es.map (.event id), some p') fun p' ↦
        processAll (wire id (record :: rs)) (0 + record.size) p' (rs ++ [emptyRecord .stdOut id]) := by
  have hdrain : (decoder.drain (wire id (record :: rs))).1 =
      record :: (rs ++ [emptyRecord .stdOut id]) := by
    obtain ⟨ms₁, ms₂, rest, hms, hdrain, -, hnil⟩ := FrameDecoder.drain_frames
      (fun record _ ↦ record.frames_bytes) (append_nil (wire id (record :: rs)))
    rw [hdrain, ← cons_append, hms, hnil rfl, append_nil]
  have hopen : Open id (fun _ ↦ none) [.createChannel id] (.init .message) := ⟨0, rfl⟩
  obtain ⟨p', hprocess, hopen'⟩ := process_stdOut record hopen htype hid hcall
  refine ⟨p', hopen' hne, ?_⟩
  rw [parseFragment, hdrain, processAll, hprocess, if_neg hne, append_nil]
  rfl

end

/-! ### Responses that are reported -/

/-- A response without headers, or with the length of its content. -/
def nothing (headers : List HeaderField) : CgiResponse := ⟨ofString "200", headers, []⟩

/-- `Content-Length: 0`. -/
def lengthZero : HeaderField := ⟨ofString "Content-Length", ofString "0", false⟩

theorem wellFormed_lengthZero : (nothing [lengthZero]).WellFormed := by
  refine ⟨forall_mem_cons.2 ⟨?_, forall_mem_singleton.2 ?_⟩,
    forall_mem_cons.2 ⟨by decide +kernel, forall_mem_singleton.2 (by decide +kernel)⟩⟩
  · exact ⟨⟨by decide +kernel, by decide +kernel⟩, by decide +kernel, by decide +kernel⟩
  · exact ⟨⟨by decide +kernel, by decide +kernel⟩, by decide +kernel, by decide +kernel⟩

def oneRecord (r : CgiResponse) (h : r.bytes.length < 2 ^ 16) : Record :=
  ⟨stdOut.code, 1, r.bytes, 0, h⟩

theorem cut_oneRecord {r : CgiResponse} (h : r.bytes.length < 2 ^ 16) (hne : r.bytes ≠ []) :
    r.Cut 1 [oneRecord r h] where
  each := forall_mem_singleton.2 ⟨rfl, rfl, hne⟩
  content := append_nil r.bytes

def endsMessage : List Event × Parser.Exit → Bool
  | (es, .done q _) => q.mode = .message && es.contains .messageEnd
  | _ => false

theorem call_of_endsMessage {fuel : ℕ} {q : Parser} {data : Bytes} {pos : ℕ}
    (h : (loopFor fuel q data pos).any endsMessage = true) :
    ∃ es q', .messageEnd ∈ es ∧ q'.mode = .message ∧ q.call data pos = (es, some q') := by
  obtain ⟨⟨es, x⟩, hx, hends⟩ := Option.any_eq_true _ _ |>.1 h
  obtain ⟨q', n⟩ | ⟨q', n⟩ | q' := x
  · cases hends
  · rw [endsMessage, Bool.and_eq_true, decide_eq_true_eq, contains_iff_mem] at hends
    refine ⟨es, q', hends.2, hends.1, ?_⟩
    rw [Parser.call, Parser.parseFragment, loop_of_loopFor fuel hx]
  · cases hends

theorem length_lengthZero : (nothing [lengthZero]).bytes.length < 2 ^ 16 := by decide +kernel

end ResponseParser

end Xzero.Http.FastCgi
