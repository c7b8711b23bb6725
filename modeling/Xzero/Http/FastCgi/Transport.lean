import Xzero.Http.FastCgi.EventOrder
import Xzero.Http.FastCgi.Generator

/-!
# FastCGI requests on the wire

What `Generator` writes for a request, `RequestParser` is to report again.

It does not: a parser reports nothing for a request that was not begun, and a parser on which it was
begun takes the text `1.1` for a version it does not know. **No request with a version survives**
(`not_survives`). **A body does**: the listener is given its bytes, however they were cut into parts
and fragments, and then the end of the message (`body_transported`).
-/

namespace Xzero.Http.FastCgi

open Http1 List Util Generator RequestParser Option Buffer HeaderFieldList StreamState RecordType Record Call

namespace RequestParser

section

variable {p p' : RequestParser} {requestId : UInt16} {s : StreamState} {l : ℕ}
  {records : List (Record × Bytes)} {r : Record} {behind : Bytes}

/-! ### Records of one request -/

theorem process_of_none (hs : p.streams r.requestId = none)
    (hr : r.type = params.code ∨ r.type = stdIn.code) :
    p.process r behind = .pure p := by
  rcases hr with hr | hr <;> simp [process, hr, code, hs]

theorem process_params (hs : p.streams r.requestId = some s) (hr : r.type = params.code) :
    p.process r behind = p.streamParams r
      { s with totalBytesReceived := s.totalBytesReceived + r.size } (r.content ++ behind) := by
  simp [process, hr, code, hs]

theorem process_stdIn (hs : p.streams r.requestId = some s) (hr : r.type = stdIn.code) :
    p.process r behind = p.streamStdIn r
      { s with totalBytesReceived := s.totalBytesReceived + r.size } := by
  simp [process, hr, code, hs]

theorem run_of_none (hs : p.streams requestId = none)
    (hrecords : ∀ r ∈ records.map Prod.fst, r.requestId = requestId ∧
      (r.type = params.code ∨ r.type = stdIn.code)) :
    p.run records = .pure p := by
  induction records with
  | nil => rfl
  | cons record records ih =>
    obtain ⟨r, behind⟩ := record
    obtain ⟨⟨rfl, hr⟩, hrecords⟩ := forall_mem_cons.1 hrecords
    rw [run, process_of_none hs hr]
    exact ih hrecords

theorem run_append (p : RequestParser) (records records' : List (Record × Bytes)) :
    p.run (records ++ records') = (p.run records).bind fun p' ↦ p'.run records' := by
  induction records generalizing p with
  | nil => rfl
  | cons record records ih =>
    rw [cons_append, run, run, Trace.bind_assoc]
    exact congrArg _ (funext fun p' ↦ ih p')

/-- The parser is in a request, of a listener. -/
structure InRequest (p : RequestParser) (requestId : UInt16) (l : ℕ) (x : Stage)
    (s : StreamState) : Prop where
  streams_eq : p.streams requestId = some s
  listener_eq : s.listener = l
  body_eq : s.body = []
  atStage : AtStage s x

theorem InRequest.params (h : p.InRequest requestId l .params s) (hid : r.requestId = requestId)
    (hr : IsPiece .params requestId r) {params : List (Bytes × Bytes)}
    (hparams : processParams r.content.length (r.content ++ behind) = some params) :
    ∃ p', p.process r behind = ([], some p') ∧ p'.InRequest requestId l .params
      (params.foldl .onParam
        { s with totalBytesReceived := s.totalBytesReceived + r.size }) := by
  obtain ⟨htype, -, hne⟩ := hr
  subst hid
  obtain ⟨hlistener, hbody, hat⟩ := foldl_onParam params
    { s with totalBytesReceived := s.totalBytesReceived + r.size }
  have hempty : ¬r.content.isEmpty = true := fun h ↦ hne (isEmpty_iff.1 h)
  refine ⟨p.setStream r.requestId (some (params.foldl .onParam
    { s with totalBytesReceived := s.totalBytesReceived + r.size })), ?_, ?_⟩
  · rw [process_params h.streams_eq htype, streamParams, if_neg hempty, hparams]
    rfl
  · exact ⟨streams_setStream_self _ _ _, hlistener.trans h.listener_eq, hbody.trans h.body_eq,
      hat _ h.atStage⟩

theorem InRequest.paramsEnd (h : p.InRequest requestId l .params s) (behind : Bytes) :
    ∃ p' s', p.process (emptyRecord .params requestId) behind =
        (s'.paramsEvents.map (event l), some p') ∧ p'.InRequest requestId l .content s' ∧
      s'.params = s.params := by
  refine ⟨_, { s with totalBytesReceived := s.totalBytesReceived + 8, paramsFullyReceived := true },
    ?_, ⟨streams_setStream_self p requestId _, h.listener_eq, h.body_eq, rfl, h.atStage.2⟩, rfl⟩
  rw [process_params h.streams_eq rfl]
  show p.notify _ _ _ = _
  rw [notify, ← h.listener_eq]
  rfl

section

variable (h : p.InRequest requestId l .content s)
include h

theorem InRequest.stdIn (hr : IsPiece .stdIn requestId r)
    (behind : Bytes) : ∃ p' s', p.process r behind = ([.event l (.content r.content)], some p') ∧
      p'.InRequest requestId l .content s' := by
  obtain ⟨htype, rfl, hne⟩ := hr
  have hempty : r.content.isEmpty = false := isEmpty_eq_false_iff.2 hne
  have hcontent : (s.contentFullyReceived || r.content.isEmpty) = false := by
    rw [hempty, Bool.or_false]
    exact h.atStage.2
  refine ⟨_, { s with
      totalBytesReceived := s.totalBytesReceived + r.size
      contentFullyReceived := s.contentFullyReceived || r.content.isEmpty }, ?_,
    ⟨streams_setStream_self p r.requestId _, h.listener_eq, h.body_eq, h.atStage.1, hcontent⟩⟩
  rw [process_stdIn h.streams_eq htype, streamStdIn, notify, ending]
  simp only [hcontent, Bool.and_false, Bool.false_eq_true, if_false, h.listener_eq, map_cons,
    map_nil]

theorem InRequest.stdInEnd (behind : Bytes) :
    ∃ p', p.process (emptyRecord .stdIn requestId) behind =
      ([.event l (.content []), .event l .messageEnd], some p') := by
  have hparams : s.paramsFullyReceived = true := h.atStage.1
  rw [process_stdIn h.streams_eq rfl, streamStdIn, notify, ending]
  simp only [hparams, emptyRecord, isEmpty_nil, Bool.or_true, Bool.and_true, if_true,
    h.listener_eq, map_cons, map_nil]
  exact ⟨_, rfl⟩

theorem InRequest.pieces (hrecords : ∀ r ∈ records.map Prod.fst, IsPiece .stdIn requestId r) :
    ∃ p' s', p.run records =
        ((records.map fun record ↦ .content record.1.content).map (event l), some p') ∧
      p'.InRequest requestId l .content s' := by
  induction records generalizing p s with
  | nil => exact ⟨p, s, rfl, h⟩
  | cons record records ih =>
    obtain ⟨r, behind⟩ := record
    obtain ⟨hr, hrecords⟩ := forall_mem_cons.1 hrecords
    obtain ⟨p₁, s₁, hprocess, h₁⟩ := h.stdIn hr behind
    obtain ⟨p₂, s₂, hrun, h₂⟩ := ih h₁ hrecords
    refine ⟨p₂, s₂, ?_, h₂⟩
    rw [run, hprocess, Trace.bind_some, hrun]
    rfl

end

end

end RequestParser

namespace Generator

section

variable {info : HttpRequestInfo} {version : Bytes} {requestId : UInt16}

theorem params_eq_firstParams (info : HttpRequestInfo) (version : Bytes) : ∃ rest,
    params info version =
      ((firstParams version).flatMap fun param ↦ encode param.1 param.2) ++ rest := by
  refine ⟨(if contains info.headers (ofString "Host") then
      encode (ofString "SERVER_NAME") (get info.headers (ofString "Host")) else []) ++
    encode (ofString "REQUEST_METHOD") info.unparsedMethod ++
    encode (ofString "REQUEST_URI") info.unparsedUri ++
    info.headers.flatMap fun header ↦ encodeHeader header.1 header.2, ?_⟩
  simp only [params, firstParams, flatMap_cons, flatMap_nil, append_nil, append_assoc]

theorem length_encode (name value : Bytes) : name.length + value.length ≤ (encode name value).length := by
  simp only [encode, length_append]
  omega

/-- **Parameters without headers that fit into a record are read back.** -/
theorem processParams_params (hheaders : info.headers = [])
    (hfits : (params info version).length ≤ 0xFFFF) (behind : Bytes) :
    processParams (params info version).length (params info version ++ behind) =
      some (firstParams version ++ [(ofString "REQUEST_METHOD", info.unparsedMethod),
        (ofString "REQUEST_URI", info.unparsedUri)]) := by
  have heq : params info version = (firstParams version ++
      [(ofString "REQUEST_METHOD", info.unparsedMethod),
        (ofString "REQUEST_URI", info.unparsedUri)]).flatMap fun param ↦ encode param.1 param.2 := by
    have hhost : contains info.headers (ofString "Host") = false := by
      rw [hheaders]
      rfl
    rw [params, hhost, hheaders]
    simp [firstParams]
  generalize firstParams version ++ [(ofString "REQUEST_METHOD", info.unparsedMethod),
    (ofString "REQUEST_URI", info.unparsedUri)] = ps at heq ⊢
  have hlengths : ∀ param ∈ ps, param.1.length < 2 ^ 31 ∧ param.2.length < 2 ^ 31 := by
    intro param hparam
    have hmem : encode param.1 param.2 ∈ ps.map fun param ↦ encode param.1 param.2 :=
      mem_map_of_mem hparam
    have hle := (sublist_flatten_of_mem hmem).length_le
    rw [← flatMap_def, ← heq] at hle
    have hencode := length_encode param.1 param.2
    omega
  have hread := processParams_flatMap_encode hlengths behind 0
  rw [← heq, Nat.add_zero, processParams_zero] at hread
  rw [hread, map_some, append_nil]

theorem length_params_pos (info : HttpRequestInfo) (version : Bytes) :
    0 < (params info version).length := by
  obtain ⟨rest, heq⟩ := params_eq_firstParams info version
  rw [heq, firstParams, flatMap_cons, append_assoc]
  exact length_pos_iff.2 (append_ne_nil_of_left_ne_nil (encode_ne_nil _ _) _)

theorem paramsRecords_eq : paramsRecords requestId info version =
    writeLoop .params requestId (params info version) 0 ++ [emptyRecord .params requestId] := by
  rw [paramsRecords, write, if_pos (length_params_pos info version).ne']
  rfl

theorem writeLoop_params (hfits : (params info version).length ≤ 0xFFFF) :
    ∃ r, writeLoop .params requestId (params info version) 0 = [r] ∧ IsPiece .params requestId r ∧
      r.content = params info version := by
  have hpos := length_params_pos info version
  have hclen : clen (params info version) 0 = (params info version).length := by
    rw [clen]
    omega
  have hloop : writeLoop .params requestId (params info version) (0 + (params info version).length)
      = [] := by
    rw [writeLoop, dif_neg (by omega)]
  refine ⟨piece .params requestId (params info version) 0
    (UInt8.ofNat (plen (params info version).length)), ?_, isPiece_piece hpos _, ?_⟩
  · rw [writeLoop, dif_pos hpos, hclen, hloop]
  · show ((params info version).drop 0).take (clen _ 0) = _
    rw [hclen, drop_zero, take_length]

end

end Generator

section

variable {info : HttpRequestInfo} {version : Bytes} {requestId : UInt16} {p : RequestParser}
  {s : StreamState} {l : ℕ} {records : List (Record × Bytes)}

/-! ### Bodies -/

theorem eventsOf_event_self (es : List Event) : eventsOf l (es.map (event l)) = es := by
  rw [eventsOf_event, if_pos rfl]

theorem messageEnd_notMem_paramsEvents (hbody : s.body = []) (hcontent : s.contentFullyReceived = false) :
    .messageEnd ∉ s.paramsEvents := by
  simp [paramsEvents, ending, hbody, hcontent]

theorem exists_events {pieces : List Record} (h : p.InRequest requestId l .params s)
    (hheaders : info.headers = []) (hfits : (params info version).length ≤ 0xFFFF)
    (hpieces : ∀ r ∈ pieces, IsPiece .stdIn requestId r)
    (hrecords : records.map Prod.fst = paramsRecords requestId info version ++ pieces ++
      [emptyRecord .stdIn requestId]) :
    ∃ es, eventsOf l (p.run records).1 = es ++ [.messageEnd] ∧ .messageEnd ∉ es ∧
      delivered es = pieces.flatMap content := by
  obtain ⟨r, hwrite, hr, hcontent⟩ := writeLoop_params hfits
  rw [paramsRecords_eq, hwrite] at hrecords
  obtain ⟨front, last, rfl, hfront, hlast⟩ := map_eq_append_iff.1 hrecords
  obtain ⟨⟨_, behindLast⟩, last, rfl, rfl, hnil⟩ := map_eq_cons_iff.1 hlast
  obtain rfl := map_eq_nil_iff.1 hnil
  obtain ⟨⟨r, behind₁⟩, front, rfl, rfl, hrest⟩ := map_eq_cons_iff.1 hfront
  obtain ⟨⟨_, behind₂⟩, front, rfl, rfl, rfl⟩ := map_eq_cons_iff.1 hrest
  -- The parameters, the end of the parameters, the content and its end.
  have hparams := processParams_params hheaders hfits behind₁
  rw [← hcontent] at hparams
  obtain ⟨p₁, hprocess₁, h₁⟩ := h.params hr.2.1 hr hparams
  obtain ⟨p₂, s₂, hprocess₂, h₂, -⟩ := h₁.paramsEnd behind₂
  obtain ⟨p₃, s₃, hrun, h₃⟩ := h₂.pieces hpieces
  obtain ⟨p₄, hprocess₄⟩ := h₃.stdInEnd behindLast
  have hall : (p.run ((r, behind₁) :: (emptyRecord .params requestId, behind₂) :: front ++
      [(emptyRecord .stdIn requestId, behindLast)])).1 = (s₂.paramsEvents ++
      (front.map fun record ↦ Event.content record.1.content) ++
        [Event.content [], .messageEnd]).map
        (event l) := by
    rw [run_append, run, hprocess₁, Trace.bind_some,
      run, hprocess₂, Trace.bind_some, hrun, Trace.bind_some, run,
      hprocess₄]
    simp [run, Trace.pure]
  have hbody₂ : delivered s₂.paramsEvents = [] := delivered_paramsEvents h₂.body_eq
  refine ⟨s₂.paramsEvents ++ (front.map fun record ↦ .content record.1.content) ++ [.content []],
    ?_, ?_, ?_⟩
  · rw [hall, eventsOf_event_self]
    simp
  · have hnot := messageEnd_notMem_paramsEvents h₂.body_eq h₂.atStage.2
    simp [hnot]
  · rw [delivered_append, delivered_append, hbody₂]
    show delivered (front.map fun record ↦ .content record.1.content) ++ [] = _
    rw [append_nil, flatMap_map, delivered, flatMap_map]

theorem written_eq {g : Generator}
    (hg : generateRequest { requestId := requestId } info = some g) (chunks : List Chunk) :
    ∃ (version : Bytes) (pieces : List Record), versionString info.version = some version ∧
      (chunks.foldl generateBody g).generateEnd.written =
        (paramsRecords requestId info version ++ pieces ++
          [emptyRecord .stdIn requestId]).flatMap bytes ∧
      (∀ r ∈ pieces, IsPiece .stdIn requestId r) ∧
      pieces.flatMap content = chunks.flatMap Chunk.bytes := by
  obtain ⟨version, hversion, rfl⟩ := map_eq_some_iff.1 hg
  obtain ⟨pieces, houtput, hmode, hid, hpieces, hcontent⟩ :=
    writes_foldl_generateBody (g := push
      { mode := .generateRequest, requestId := requestId }
      (paramsRecords requestId info version)) rfl chunks
  refine ⟨version, pieces, hversion, ?_, hpieces, hcontent⟩
  rw [written_generateEnd hmode, houtput, hid, output_push,
    flatMap_append, flatMap_append, flatMap_singleton]
  rfl

/-- **A body arrives**: of a request without headers whose parameters fit into a record, on a parser
on which it was begun, the listener is given the bytes of the parts, and then the end of the
message. No record has more than `0xFFFF` bytes of content, and those written from a buffer are
padded to a multiple of eight bytes. -/
theorem body_transported {g : Generator} {chunks : List Chunk} {fragments : List Bytes}
    (hheaders : info.headers = [])
    (hg : generateRequest { requestId := requestId } info = some g)
    (hfits : ∀ version, versionString info.version = some version →
      (params info version).length ≤ 0xFFFF)
    (hbegun : p.InRequest requestId l .params s)
    (hfragments : fragments.flatten = (chunks.foldl generateBody g).generateEnd.written) :
    (∃ written, decoder.feed [] fragments = (written, .ok []) ∧
      (∀ r ∈ written, r.content.length ≤ 0xFFFF) ∧
      ∀ records : List (Record × Bytes), records.map Prod.fst = written →
        ∃ es, eventsOf l (p.run records).1 = es ++ [.messageEnd] ∧ .messageEnd ∉ es ∧
          delivered es = chunks.flatMap Chunk.bytes) ∧
      ∀ (type : RecordType) (buf : Bytes), ∀ r ∈ write type requestId buf, 8 ∣ r.size := by
  obtain ⟨version, pieces, hversion, hwritten, hpieces, hcontent⟩ := written_eq hg chunks
  refine ⟨⟨_, FrameDecoder.feed_frames (fun r _ ↦ r.frames_bytes) (hfragments.trans hwritten),
    fun r _ ↦ Nat.le_of_lt_succ r.length_lt, ?_⟩, fun type buf r ↦ dvd_size_of_mem_write⟩
  intro records hrecords
  obtain ⟨es, hevents, hnot, hdelivered⟩ :=
    exists_events hbegun hheaders (hfits version hversion) hpieces hrecords
  exact ⟨es, hevents, hnot, hdelivered.trans hcontent⟩

/-- A request for `/`. -/
def getRequest : HttpRequestInfo :=
  { version := .version11, unparsedMethod := ofString "GET", unparsedUri := ofString "/", headers := [] }

/-- The generator after the parameters of that request. -/
def getGenerator : Generator :=
  push { mode := .generateRequest, requestId := 1 } (paramsRecords 1 getRequest (ofString "1.1"))

/-- A parser on which request 1 was begun. -/
def begunParser : RequestParser :=
  { setStream {} 1 (some { listener := 0, totalBytesReceived := 16 }) with
    listeners := 1 }

theorem inRequest_begunParser :
    begunParser.InRequest 1 0 .params { listener := 0, totalBytesReceived := 16 } :=
  ⟨rfl, rfl, rfl, rfl, rfl⟩

/-- The body of a request in two parts. -/
theorem body_transported_two_parts : (∃ written, decoder.feed []
        [([.buffer [120], .file [121]].foldl generateBody
          getGenerator).generateEnd.written] = (written, .ok []) ∧
      (∀ r ∈ written, r.content.length ≤ 0xFFFF) ∧
      ∀ records : List (Record × Bytes), records.map Prod.fst = written →
        ∃ es, eventsOf 0 (begunParser.run records).1 = es ++ [.messageEnd] ∧ .messageEnd ∉ es ∧
          delivered es = [120, 121]) ∧
      ∀ (type : RecordType) (buf : Bytes), ∀ r ∈ write type 1 buf, 8 ∣ r.size := by
  have hfits : ∀ version, versionString getRequest.version = some version →
      (params getRequest version).length ≤ 0xFFFF := by
    rintro version ⟨⟩
    decide +kernel
  have hheaders : getRequest.headers = [] := rfl
  have hg : generateRequest { requestId := 1 } getRequest = some getGenerator := rfl
  have hfragments : [([.buffer [120], .file [121]].foldl generateBody
      getGenerator).generateEnd.written].flatten = ([.buffer [120], .file [121]].foldl
        generateBody getGenerator).generateEnd.written := append_nil _
  exact body_transported hheaders hg hfits inRequest_begunParser hfragments

/-! ### Requests -/

/-- The request is reported as it is, with the names of its headers up to case. -/
def Survives (info : HttpRequestInfo) (calls : List Call) : Prop :=
  ∃ (l : ℕ) (headers : HeaderFieldList),
    eventsOf l calls = .requestBegin info.unparsedMethod info.unparsedUri info.version ::
      (headers.map fun header ↦ .header header.1 header.2) ++ [.headerEnd] ∧
    List.Forall₂ (fun header header' ↦ iequals header.1 header'.1 = true ∧
      header.2 = header'.2) info.headers headers

/-- A message that is begun has a version that is not known. -/
def Unversioned (calls : List Call) : Prop :=
  ∀ l method entity version, event l (.requestBegin method entity version) ∈ calls →
    version = .unknown

theorem not_survives_of_unversioned {calls : List Call} (h : Unversioned calls)
    (hversion : info.version ≠ .unknown) : ¬Survives info calls := by
  rintro ⟨l, headers, hevents, -⟩
  have hmem : .requestBegin info.unparsedMethod info.unparsedUri info.version ∈
      eventsOf l calls := by
    rw [hevents]
    exact mem_cons_self
  obtain ⟨call, hcall, heq⟩ := mem_filterMap.1 hmem
  cases call with
  | event k e =>
    simp only at heq
    split_ifs at heq
    cases heq
    exact hversion (h k _ _ _ hcall)
  | _ => cases heq

theorem version_of_firstParams (hversion : versionString info.version = some version)
    {rest : HeaderFieldList} (hs : s.params = firstParams version ++ rest) :
    s.version = .unknown := by
  have hget : HeaderFieldList.get s.params (ofString "SERVER_PROTOCOL") = version := by
    have h₁ : iequals (ofString "GATEWAY_INTERFACE") (ofString "SERVER_PROTOCOL") = false := by
      decide +kernel
    have h₂ : iequals (ofString "SERVER_SOFTWARE") (ofString "SERVER_PROTOCOL") = false := by
      decide +kernel
    have h₃ : iequals (ofString "SERVER_PROTOCOL") (ofString "SERVER_PROTOCOL") = true := by
      decide +kernel
    rw [hs]
    simp only [HeaderFieldList.get, firstParams, cons_append, find?_cons, h₁, h₂,
      h₃, map_some, getD_some]
  rw [StreamState.version, hget]
  cases hv : info.version with
  | unknown =>
    rw [hv] at hversion
    cases hversion
  | _ =>
    rw [hv] at hversion
    cases hversion
    decide +kernel

theorem exists_params_foldl (params : List (Bytes × Bytes)) (s : StreamState) :
    ∃ rest, (params.foldl .onParam s).params = s.params ++ rest := by
  induction params generalizing s with
  | nil => exact ⟨[], (append_nil _).symm⟩
  | cons param params ih =>
    obtain ⟨rest, hrest⟩ := ih (s.onParam param)
    have hone : ∃ rest, (s.onParam param).params = s.params ++ rest := by
      rw [onParam]
      split_ifs
      · exact ⟨[], (append_nil _).symm⟩
      · exact ⟨[param], rfl⟩
    obtain ⟨rest', hrest'⟩ := hone
    exact ⟨rest' ++ rest, by rw [foldl_cons, hrest, hrest', append_assoc]⟩

theorem version_of_mem_paramsEvents {method entity : Bytes} {v : HttpVersion}
    (h : .requestBegin method entity v ∈ s.paramsEvents) : v = s.version := by
  rw [paramsEvents, mem_append, mem_append, mem_cons, mem_cons] at h
  rcases h with ((h | h) | h | h) | h
  · exact (Event.requestBegin.inj h).2.2
  · obtain ⟨header, -, heq⟩ := mem_map.1 h
    cases heq
  · cases h
  · split_ifs at h
    · cases h
    · cases mem_singleton.1 h
  · rw [ending] at h
    split_ifs at h
    · cases mem_singleton.1 h
    · cases h

theorem params_onParam {t : StreamState} {name value : Bytes}
    (h : (ofString "HTTP_").isPrefixOf name = false) :
    (t.onParam (name, value)).params = t.params ++ [(name, value)] := by
  rw [onParam]
  split_ifs with hname
  · exact absurd (h.symm.trans hname) Bool.false_ne_true
  · rfl

theorem params_foldl_firstParams {t : StreamState} (ht : t.params = []) :
    ((firstParams version).foldl .onParam t).params = firstParams version := by
  have h₁ : (ofString "HTTP_").isPrefixOf (ofString "GATEWAY_INTERFACE") = false := by decide +kernel
  have h₂ : (ofString "HTTP_").isPrefixOf (ofString "SERVER_SOFTWARE") = false := by decide +kernel
  have h₃ : (ofString "HTTP_").isPrefixOf (ofString "SERVER_PROTOCOL") = false := by decide +kernel
  rw [firstParams, foldl_cons, foldl_cons, foldl_cons, foldl_nil,
    params_onParam h₃, params_onParam h₂, params_onParam h₁, ht, nil_append, singleton_append,
    cons_append, singleton_append]

theorem unversioned_cons (hp : p.InRequest requestId l .params s) {r : Record}
    (hr : IsPiece .params requestId r) {behind : Bytes}
    (hrest : ∀ (params : List (Bytes × Bytes)) (p' : RequestParser),
      processParams r.content.length (r.content ++ behind) = some params →
      p'.InRequest requestId l .params (params.foldl .onParam
        { s with totalBytesReceived := s.totalBytesReceived + r.size }) →
      Unversioned (p'.run records).1) : Unversioned (p.run ((r, behind) :: records)).1 := by
  rcases hparams : processParams r.content.length (r.content ++ behind) with - | params
  · have hempty : ¬r.content.isEmpty = true := fun h ↦ hr.2.2 (isEmpty_iff.1 h)
    have hprocess : p.process r behind = ([], none) := by
      rw [process_params (hr.2.1 ▸ hp.streams_eq) hr.1, streamParams, if_neg hempty, hparams]
    rw [run, hprocess]
    exact fun _ _ _ _ hmem ↦ by cases hmem
  · obtain ⟨p', hprocess, hp'⟩ := hp.params hr.2.1 hr hparams
    rw [run, hprocess, Trace.bind_some, nil_append]
    exact hrest params p' hparams hp'

theorem unversioned_run (hversion : versionString info.version = some version)
    {pieces : List Record} (hpieces : ∀ r ∈ pieces, IsPiece .params requestId r)
    (hp : p.InRequest requestId l .params s)
    (hs : ∃ rest, s.params = firstParams version ++ rest)
    (hrecords : records.map Prod.fst = pieces ++ [emptyRecord .params requestId]) :
    Unversioned (p.run records).1 := by
  induction pieces generalizing p s records with
  | nil =>
    obtain ⟨⟨_, behind⟩, rest, rfl, rfl, hnil⟩ := map_eq_cons_iff.1 hrecords
    obtain rfl := map_eq_nil_iff.1 hnil
    obtain ⟨p', s', hprocess, -, hparams⟩ := hp.paramsEnd behind
    obtain ⟨first, hfirst⟩ := hs
    intro k method entity v hmem
    rw [run, hprocess, Trace.bind_some, mem_append] at hmem
    rcases hmem with hmem | hmem
    · obtain ⟨e, he, heq⟩ := mem_map.1 hmem
      obtain ⟨-, rfl⟩ := event.inj heq
      rw [version_of_mem_paramsEvents he]
      exact version_of_firstParams hversion (hparams.trans hfirst)
    · cases hmem
  | cons r pieces ih =>
    obtain ⟨⟨r, behind⟩, rest, rfl, rfl, hrest⟩ := map_eq_cons_iff.1 hrecords
    obtain ⟨hr, hpieces⟩ := forall_mem_cons.1 hpieces
    refine unversioned_cons hp hr fun params p' _ hp' ↦ ?_
    obtain ⟨more, hmore⟩ := exists_params_foldl params
      { s with totalBytesReceived := s.totalBytesReceived + r.size }
    obtain ⟨first, hfirst⟩ := hs
    refine ih hpieces hp' ⟨first ++ more, ?_⟩ hrest
    rw [hmore]
    rw [hfirst, append_assoc]

theorem processParams_first (hversion : versionString info.version = some version)
    {padding : UInt8} {behind : Bytes} {params : List (Bytes × Bytes)}
    (hparams : processParams
        (piece .params requestId (Generator.params info version) 0 padding).content.length
        ((piece .params requestId (Generator.params info version) 0 padding).content ++ behind) =
      some params) : ∃ rest, params = firstParams version ++ rest := by
  obtain ⟨rest, heq⟩ := params_eq_firstParams info version
  have hfirst : ((firstParams version).flatMap fun param ↦
        encode param.1 param.2).length ≤ 0xFFFF ∧
      ∀ param ∈ firstParams version, param.1.length < 2 ^ 31 ∧ param.2.length < 2 ^ 31 := by
    cases hv : info.version with
    | unknown =>
      rw [hv] at hversion
      cases hversion
    | _ =>
      rw [hv] at hversion
      cases hversion
      decide +kernel
  generalize hF : ((firstParams version).flatMap fun param ↦
    encode param.1 param.2) = F at hfirst heq
  have hcontent : (piece .params requestId (Generator.params info version) 0 padding).content =
      F ++ rest.take (clen (F ++ rest) 0 - F.length) := by
    show ((Generator.params info version).drop 0).take (clen _ 0) = _
    rw [heq, drop_zero, take_append, take_of_length_le]
    rw [clen, length_append]
    omega
  have hread := processParams_flatMap_encode hfirst.2
    (rest.take (clen (F ++ rest) 0 - F.length) ++ behind)
    (rest.take (clen (F ++ rest) 0 - F.length)).length
  rw [hF, ← append_assoc, ← length_append, ← hcontent, hparams] at hread
  obtain ⟨more, -, hmore⟩ := map_eq_some_iff.1 hread.symm
  exact ⟨more, hmore.symm⟩

theorem run_paramsRecords_of_none (hp : p.streams requestId = none)
    (hrecords : records.map Prod.fst = paramsRecords requestId info version) :
    p.run records = .pure p := by
  refine run_of_none hp ?_
  rw [hrecords, paramsRecords_eq]
  refine forall_mem_append.2 ⟨fun r hr ↦ ?_, ?_⟩
  · obtain ⟨htype, hid, -⟩ := (mem_writeLoop 0 r hr).1
    exact ⟨hid, .inl htype⟩
  · exact forall_mem_singleton.2 ⟨rfl, .inl rfl⟩

/-- **No request with a version survives**, whether or not it was begun on the parser before. -/
theorem not_survives (hversion : versionString info.version = some version)
    (hrecords : records.map Prod.fst = Generator.paramsRecords requestId info version)
    (hp : p.streams requestId = none ∨ p.InRequest requestId l .params s ∧ s.params = []) :
    ¬Survives info (p.run records).1 := by
  have hknown : info.version ≠ .unknown := by
    intro hunknown
    rw [hunknown] at hversion
    cases hversion
  refine not_survives_of_unversioned ?_ hknown
  have hpieces : ∀ r ∈ writeLoop .params requestId (Generator.params info version) 0,
      IsPiece .params requestId r := fun r hr ↦ (mem_writeLoop 0 r hr).1
  rcases hp with hnone | ⟨hp, hs⟩
  · rw [run_paramsRecords_of_none hnone hrecords]
    exact fun _ _ _ _ hmem ↦ nomatch hmem
  · -- After the first record, the version is among the parameters.
    rw [paramsRecords_eq] at hrecords
    rw [writeLoop, dif_pos (length_params_pos info version)] at hrecords hpieces
    obtain ⟨⟨r, behind⟩, rest, rfl, hr, hrest⟩ := map_eq_cons_iff.1 hrecords
    obtain ⟨hpiece, hpieces⟩ := forall_mem_cons.1 hpieces
    obtain rfl : r = _ := hr
    refine unversioned_cons hp hpiece fun params p' hparams hp' ↦ ?_
    obtain ⟨first, rfl⟩ := processParams_first hversion hparams
    obtain ⟨more, hmore⟩ := exists_params_foldl first
      ((Generator.firstParams version).foldl .onParam _)
    refine unversioned_run hversion hpieces hp' ⟨more, ?_⟩ hrest
    rw [foldl_append, hmore]
    exact congrArg (· ++ more) (params_foldl_firstParams hs)

/-- The records of a request, with nothing behind them. -/
def getRecords : List (Record × Bytes) :=
  (paramsRecords 1 getRequest (ofString "1.1")).map fun r ↦ (r, [])

theorem map_fst_getRecords :
    getRecords.map Prod.fst = paramsRecords 1 getRequest (ofString "1.1") := by
  rw [getRecords, List.map_map]
  exact List.map_id _

/-- Not even on a parser on which it was begun. -/
theorem not_survives_begun : ¬Survives getRequest (begunParser.run getRecords).1 :=
  not_survives rfl map_fst_getRecords (.inr ⟨inRequest_begunParser, rfl⟩)

/-- A new parser reports nothing. -/
theorem not_forall_survives : ¬∀ (info : HttpRequestInfo) (version : Bytes) (requestId : UInt16)
      (records : List (Record × Bytes)), versionString info.version = some version →
        records.map Prod.fst = paramsRecords requestId info version →
          Survives info (run {} records).1 := by
  intro hall
  obtain ⟨l, headers, hevents, -⟩ := hall getRequest (ofString "1.1") 1 getRecords rfl map_fst_getRecords
  rw [run_paramsRecords_of_none rfl map_fst_getRecords] at hevents
  cases hevents

end

end Xzero.Http.FastCgi
