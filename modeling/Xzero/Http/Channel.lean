import Xzero.Http.HeaderFieldList
import Xzero.Http.Http1.Metered
import Xzero.Http.RequestInfo

/-!
# The limits of an HTTP/1 channel

`xzero/http/HttpChannel.cc` and `xzero/http/http1/Channel.cc`: the listener of the parser, from the
beginning of a message to the call of the application's handler and the content that is handed to
the request.

The channel is constructed with a limit for the URI, at which nothing looks, and one for the
content, which is compared with the first `Content-Length` only. **The limits are kept in every run
in which the URIs are short enough, no request is chunked, and every request has one
`Content-Length` at most, which no `Connection` header hides**
(`HttpChannel.keepsLimits_of_modest`). Chunked content has no limit.

`Connection` gives the parser the next request after the response to the one before, for which it
has called `reset()`; here that is the end of the message, so that all the content of a message
counts for its request. An exception ends the run.
-/

namespace Xzero.Http

open Util Http1 HeaderFieldList List Option Buffer StringUtil Parser Bool Meter

/-- `Tokenizer::tokenize`: what stands between delimiters and is not empty. -/
def Tokenizer.tokenize (input delimiter : Bytes) : List Bytes :=
  (input.splitOnP fun c ↦ c ∈ delimiter).filter fun token ↦ !token.isEmpty

/-! ### The channel -/

inductive HttpChannelState
  | reading | handling
  deriving DecidableEq, Repr

/-- The limits the channel is constructed with. -/
structure Limits where
  maxRequestUriLength : ℕ
  maxRequestBodyLength : ℕ
  deriving DecidableEq, Repr

/-- A request for which the handler was called, with the content it was given. -/
structure Handled where
  uri : Bytes
  content : Bytes
  deriving DecidableEq, Repr

/-- The members of `HttpChannel` and `http1::Channel` and of their request. -/
structure HttpChannel where
  state : HttpChannelState := .reading
  version : HttpVersion := .unknown
  info : RequestInfo := {}
  headers : HeaderFieldList := []
  expect100Continue : Bool := false
  host : Bytes := []
  connectionOptions : List Bytes := []
  /-- The status of a response that the channel gives instead of the handler. -/
  status : Option ℕ := none
  /-- The handler was called for the current request, which is the first of those handled. -/
  called : Bool := false
  /-- The requests for which the handler was called, the last one first. -/
  handled : List Handled := []
  deriving Repr

namespace HttpChannel

def reset (c : HttpChannel) : HttpChannel := { handled := c.handled }

def onMessageBegin (c : HttpChannel) (entity : Bytes) (version : HttpVersion) : Option HttpChannel :=
  match setUri c.info entity with
  | (true, info) => some { c with version := version, info := info }
  | (false, _) => none

def onMessageHeader (c : HttpChannel) (name value : Bytes) : Option HttpChannel :=
  if iequals name (ofString "Connection") then
    some { c with
      connectionOptions := c.connectionOptions ++ Tokenizer.tokenize value (ofString ", ") }
  else
    let c := { c with
      headers := c.headers ++ [(name, value)]
      expect100Continue := c.expect100Continue ||
        (iequals name (ofString "Expect") && iequals value (ofString "100-continue")) }
    if iequals name (ofString "Host") then
      if c.host.isEmpty then some { c with host := value } else none
    else some c

def handler (c : HttpChannel) : HttpChannel :=
  { c with called := true, handled := ⟨c.info.unparsedUri, []⟩ :: c.handled }

/-- An `int` as a `size_t`. -/
def sizeT (n : ℤ) : ℕ := (n % 2 ^ 64).toNat

def handleRequest (limits : Limits) (c : HttpChannel) : Option HttpChannel :=
  if contains c.headers contentLengthName then
    match stoi (get c.headers contentLengthName) with
    | none => none
    | some n =>
      if limits.maxRequestBodyLength < sizeT n then
        let status : ℕ := if c.expect100Continue then 417 else 413
        some { c with expect100Continue := false, status := some status }
      else some c.handler
  else some c.handler

/-- The headers that `onMessageHeaderEnd` hides. -/
def hideHeaders (c : HttpChannel) : HttpChannel :=
  let headers := remove c.headers (ofString "Connection")
  { c with headers := c.connectionOptions.foldl remove headers }

def onMessageHeaderEnd (limits : Limits) (c : HttpChannel) : Option HttpChannel :=
  let c := c.hideHeaders
  match c.state with
  | .handling => some c
  | .reading =>
    let c := { c with state := .handling }
    if c.version = .version11 ∧ HeaderFieldList.contains c.headers (ofString "Host") = false then none
    else c.handleRequest limits

def onMessageContent (c : HttpChannel) (chunk : Bytes) : HttpChannel :=
  match c.called, c.handled with
  | true, r :: rs => { c with handled := { r with content := r.content ++ chunk } :: rs }
  | _, _ => c

/-- A call of the listener; `none` stands for an exception. -/
def step (limits : Limits) (c : HttpChannel) : Event → Option HttpChannel
  | .requestBegin _ entity version => c.onMessageBegin entity version
  | .header name value => c.onMessageHeader name value
  | .headerEnd => c.onMessageHeaderEnd limits
  | .content chunk => some (c.onMessageContent chunk)
  | .messageEnd => some c.reset
  | _ => some c

/-- The calls of a listener, up to an exception. -/
def run (limits : Limits) (c : HttpChannel) : List Event → HttpChannel
  | [] => c
  | e :: es =>
    match c.step limits e with
    | none => c
    | some c' => run limits c' es

/-! ### Limits -/

/-- The request is within the limits. -/
def Within (limits : Limits) (r : Handled) : Prop :=
  r.uri.length ≤ limits.maxRequestUriLength ∧ r.content.length ≤ limits.maxRequestBodyLength

instance (limits : Limits) (r : Handled) : Decidable (Within limits r) :=
  inferInstanceAs (Decidable (_ ∧ _))

/-- Every request on a connection that reaches the handler is within the limits. -/
def KeepsLimits (limits : Limits) (fragments : List Bytes) : Prop :=
  ∀ r ∈ (run limits {} (parse .request fragments).1).handled, Within limits r

/-- What a request has to be like: its URI is short enough, it has one `Content-Length` at most, and
none of its `Connection` headers names that one. -/
def Modest (limits : Limits) (c : HttpChannel) : Event → Prop
  | .requestBegin _ entity _ => entity.length ≤ limits.maxRequestUriLength
  | .header name value =>
    if iequals name (ofString "Connection") then
      ∀ option ∈ Tokenizer.tokenize value (ofString ", "), iequals option contentLengthName = false
    else
      iequals name contentLengthName = true → contains c.headers contentLengthName = false
  | _ => True

/-- All the calls are of such requests. -/
def Modestly (limits : Limits) (c : HttpChannel) : List Event → Prop
  | [] => True
  | e :: es => c.Modest limits e ∧ ∀ c', c.step limits e = some c' → Modestly limits c' es

instance (limits : Limits) (c : HttpChannel) (e : Event) : Decidable (c.Modest limits e) :=
  match e with
  | .requestBegin .. => inferInstanceAs (Decidable (_ ≤ _))
  | .header name value =>
    if h : iequals name (ofString "Connection") = true then
      decidable_of_iff (∀ option ∈ Tokenizer.tokenize value (ofString ", "),
        iequals option contentLengthName = false) (by rw [Modest, if_pos h])
    else
      decidable_of_iff (iequals name contentLengthName = true →
        contains c.headers contentLengthName = false) (by rw [Modest, if_neg h])
  | .responseBegin .. | .messageBegin | .headerEnd | .content _ | .messageEnd | .protocolError _ =>
    isTrue trivial

/-- `Modestly` can be evaluated. -/
instance decidableModestly (limits : Limits) :
    ∀ (c : HttpChannel) (es : List Event), Decidable (c.Modestly limits es)
  | _, [] => isTrue trivial
  | c, e :: es =>
    have : Decidable (∀ c', c.step limits e = some c' → c'.Modestly limits es) :=
      match c.step limits e with
      | none => isTrue nofun
      | some c' =>
        have := decidableModestly limits c' es
        decidable_of_iff (c'.Modestly limits es)
          ⟨fun hc' _ heq ↦ some.inj heq ▸ hc', fun hall ↦ hall c' rfl⟩
    inferInstanceAs (Decidable (_ ∧ _))

/-! ### Runs that keep the limits -/

section

variable {limits : Limits} {c c' : HttpChannel} {m : Meter} {φ φ' : Phase} {e : Event}
  {es : List Event}

/-- The length that the headers announce to the parser, if there is one of that name. -/
def announced (fields : HeaderFieldList) : BitVec 64 :=
  if contains fields contentLengthName then
    (toInt (get fields contentLengthName)).signExtend 64
  else -1

/-- What the channel and the meter have in common, between two calls. -/
structure Tracks (limits : Limits) (c : HttpChannel) (m : Meter) (φ : Phase) : Prop where
  within : ∀ r ∈ c.handled, Within limits r
  current : c.called = true → m.limit ≤ limits.maxRequestBodyLength ∧
    ∀ r ∈ c.handled.head?, r.content.length ≤ m.got
  idle : φ = .idle → c = c.reset
  uri : c.info.unparsedUri.length ≤ limits.maxRequestUriLength
  headers : φ = .headers → c.called = false ∧ m.announced = announced c.headers ∧
    ∀ option ∈ c.connectionOptions, iequals option contentLengthName = false

theorem unparsedUri_setUri (r : RequestInfo) (entity : Bytes) :
    (setUri r entity).2.unparsedUri = entity := by
  rw [setUri]
  split_ifs
  · rfl
  · split <;> rfl

theorem toNat_signExtend_le {value : Bytes} {n : ℤ} (h : stoi value = some n) :
    ((toInt value).signExtend 64).toInt.toNat ≤ sizeT n := by
  rw [BitVec.toInt_signExtend_of_le (by decide)]
  obtain ⟨hdigits, hge, hlt⟩ := stoi_eq_some_iff.1 h
  have hcases : (toInt value).toInt = n ∨ (toInt value).toInt = 0 := by
    rcases value with - | ⟨b, rest⟩
    · exact .inr rfl
    · by_cases hb : isSpace b = true
      · rw [toInt_space hb]
        exact .inr rfl
      · exact .inl ((toInt_eq_iff h).2 (.inr (by simpa using hb)))
  rw [sizeT]
  rcases hcases with hn | hn <;> rw [hn] <;> omega

theorem called_of_reset (h : c = c.reset) : c.called = false := by rw [h]; rfl

theorem announced_of_reset (h : c = c.reset) : announced c.headers = -1 := by rw [h]; rfl

theorem connectionOptions_of_reset (h : c = c.reset) : c.connectionOptions = [] := by rw [h]; rfl

theorem Tracks.begin (h : Tracks limits c m .idle) {entity : Bytes} {version : HttpVersion}
    (hentity : entity.length ≤ limits.maxRequestUriLength)
    (hstep : c.onMessageBegin entity version = some c') : Tracks limits c' start .headers := by
  have hreset := h.idle rfl
  have hfalse := called_of_reset hreset
  have huri := unparsedUri_setUri c.info entity
  rw [onMessageBegin] at hstep
  rcases hset : setUri c.info entity with ⟨- | -, info⟩
  · rw [hset] at hstep
    cases hstep
  · rw [hset] at hstep huri
    cases hstep
    refine ⟨h.within, fun hcalled ↦ ?_, nofun, ?_, fun _ ↦ ⟨hfalse, ?_, ?_⟩⟩
    · exact absurd (hfalse.symm.trans hcalled) false_ne_true
    · rw [huri]
      exact hentity
    · exact (announced_of_reset hreset).symm
    · rw [connectionOptions_of_reset hreset]
      exact forall_mem_nil _

theorem Tracks.header (h : Tracks limits c m .headers) {announced' : BitVec 64}
    (hhandled : c'.handled = c.handled) (hcalled : c'.called = c.called) (hinfo : c'.info = c.info)
    (hannounced : announced' = announced c'.headers)
    (hoptions : ∀ option ∈ c'.connectionOptions, iequals option contentLengthName = false) :
    Tracks limits c' { m with announced := announced' } .headers := by
  have hfalse := (h.headers rfl).1
  refine ⟨hhandled ▸ h.within, fun htrue ↦ ?_, nofun, hinfo ▸ h.uri,
    fun _ ↦ ⟨hcalled.trans hfalse, hannounced, hoptions⟩⟩
  exact absurd (hfalse.symm.trans (hcalled.symm.trans htrue)) false_ne_true

theorem announced_append {fields : HeaderFieldList} {name value : Bytes}
    (h : iequals name contentLengthName = true → contains fields contentLengthName = false) :
    Event.length (announced fields) (.header name value) = announced (fields ++ [(name, value)]) := by
  rw [announced, announced, contains_append, Event.length]
  by_cases hname : iequals name contentLengthName = true
  · rw [if_pos hname, hname, Bool.or_true, if_pos rfl,
      get_append_of_iequals (h hname) hname]
  · rw [if_neg hname]
    rw [not_eq_true] at hname
    rw [hname, Bool.or_false, get_append_of_not_iequals hname]

theorem length_connection {name value : Bytes} (n : BitVec 64)
    (hname : iequals name (ofString "Connection") = true) :
    Event.length n (.header name value) = n := by
  rw [Event.length, if_neg]
  intro hlength
  have hnames := (iequals_iff.1 hname).symm.trans (iequals_iff.1 hlength)
  exact absurd hnames (by decide)

theorem Tracks.onMessageHeader (h : Tracks limits c m .headers) {name value : Bytes}
    (hmodest : c.Modest limits (.header name value)) (hstep : c.onMessageHeader name value = some c') :
    Tracks limits c' (m.next (.header name value)) .headers := by
  obtain ⟨-, hannounced, hoptions⟩ := h.headers rfl
  rw [HttpChannel.onMessageHeader] at hstep
  rw [Modest] at hmodest
  by_cases hname : iequals name (ofString "Connection") = true
  · rw [if_pos hname] at hstep hmodest
    cases hstep
    refine h.header rfl rfl rfl ?_ (forall_mem_append.2 ⟨hoptions, hmodest⟩)
    rw [length_connection _ hname, hannounced]
  · rw [if_neg hname] at hstep hmodest
    have happend : Event.length (announced c.headers) (.header name value) =
        announced (c.headers ++ [(name, value)]) := announced_append hmodest
    rw [← hannounced] at happend
    simp only at hstep
    split_ifs at hstep
    · cases hstep
      exact h.header rfl rfl rfl happend hoptions
    · cases hstep
      exact h.header rfl rfl rfl happend hoptions

theorem announced_hideHeaders
    (h : ∀ option ∈ c.connectionOptions, iequals option contentLengthName = false) :
    announced c.hideHeaders.headers = announced c.headers := by
  have hconnection : iequals (ofString "Connection") contentLengthName = false := by decide
  have hfold := @foldl_remove (remove c.headers (ofString "Connection")) _ _ h
  rw [announced, hideHeaders, hfold.1, hfold.2, contains_remove hconnection, get_remove hconnection]
  rfl

theorem limit_of_handleRequest (hm : m.announced = announced c.headers)
    (hstep : c.handleRequest limits = some c') (hfalse : c.called = false) :
    (c'.called = false ∧ c'.handled = c.handled ∧ c'.info = c.info) ∨
      c' = c.handler ∧ m.limit ≤ limits.maxRequestBodyLength := by
  rw [handleRequest] at hstep
  rw [announced] at hm
  by_cases hcontains : contains c.headers contentLengthName = true
  · rw [if_pos hcontains] at hstep hm
    split at hstep
    · cases hstep
    · rename_i n hn
      by_cases hlimit : limits.maxRequestBodyLength < sizeT n
      · rw [if_pos hlimit] at hstep
        cases hstep
        exact .inl ⟨hfalse, rfl, rfl⟩
      · rw [if_neg hlimit] at hstep
        refine .inr ⟨(some.inj hstep).symm, ?_⟩
        rw [limit, hm]
        exact (toNat_signExtend_le hn).trans (Nat.not_lt.1 hlimit)
  · rw [if_neg hcontains] at hstep hm
    refine .inr ⟨(some.inj hstep).symm, ?_⟩
    rw [limit, hm]
    exact Nat.zero_le _

theorem Tracks.onMessageHeaderEnd (h : Tracks limits c m .headers)
    (hstep : c.onMessageHeaderEnd limits = some c') : Tracks limits c' m .contents := by
  obtain ⟨hfalse, hannounced, hoptions⟩ := h.headers rfl
  have hm := hannounced.trans (announced_hideHeaders hoptions).symm
  have hsame : ∀ c' : HttpChannel, c'.called = false → c'.handled = c.handled → c'.info = c.info →
      Tracks limits c' m .contents := by
    intro c' hcalled hhandled hinfo
    refine ⟨hhandled ▸ h.within, fun htrue ↦ ?_, nofun, hinfo ▸ h.uri, nofun⟩
    exact absurd (hcalled.symm.trans htrue) false_ne_true
  rw [HttpChannel.onMessageHeaderEnd] at hstep
  simp only at hstep
  split at hstep
  · cases hstep
    exact hsame _ hfalse rfl rfl
  · split_ifs at hstep
    rcases limit_of_handleRequest (c := { c.hideHeaders with state := .handling }) hm hstep hfalse with ⟨hcalled, hhandled, hinfo⟩ | ⟨rfl, hlimit⟩
    · exact hsame _ hcalled hhandled hinfo
    · have hwithin : Within limits ⟨c.info.unparsedUri, []⟩ := ⟨h.uri, Nat.zero_le _⟩
      refine ⟨forall_mem_cons.2 ⟨hwithin, h.within⟩, fun _ ↦ ⟨hlimit, ?_⟩, nofun, h.uri, nofun⟩
      rintro r ⟨⟩
      exact Nat.zero_le _

theorem Tracks.onMessageContent (h : Tracks limits c m .contents) (chunk : Bytes)
    (hle : m.got + chunk.length ≤ m.limit) :
    Tracks limits (c.onMessageContent chunk) { m with got := m.got + chunk.length } .contents := by
  have hcurrent := h.current
  have hwithin := h.within
  rw [HttpChannel.onMessageContent]
  split
  · next r rs hcalled hhandled =>
    obtain ⟨hlimit, hcontent⟩ := hcurrent hcalled
    rw [hhandled] at hcontent hwithin
    obtain ⟨hr, hrs⟩ := forall_mem_cons.1 hwithin
    have hlen : (r.content ++ chunk).length ≤ m.got + chunk.length := by
      rw [length_append]
      exact Nat.add_le_add_right (hcontent r rfl) _
    refine ⟨forall_mem_cons.2 ⟨⟨hr.1, hlen.trans (hle.trans hlimit)⟩, hrs⟩,
      fun _ ↦ ⟨hlimit, ?_⟩, nofun, h.uri, nofun⟩
    rintro _ ⟨⟩
    exact hlen
  · refine ⟨hwithin, fun hcalled ↦ ?_, nofun, h.uri, nofun⟩
    obtain ⟨hlimit, hcontent⟩ := hcurrent hcalled
    exact ⟨hlimit, fun r hr ↦ (hcontent r hr).trans (Nat.le_add_right _ _)⟩

theorem Tracks.reset (h : Tracks limits c m φ) : Tracks limits c.reset m .idle :=
  ⟨h.within, nofun, fun _ ↦ rfl, Nat.zero_le _, nofun⟩

theorem Tracks.failed (h : Tracks limits c m φ) : Tracks limits c m .failed :=
  ⟨h.within, h.current, nofun, h.uri, nofun⟩

theorem Tracks.other (h : Tracks limits c m .idle) : Tracks limits c start .headers := by
  have hreset := h.idle rfl
  have hfalse := called_of_reset hreset
  refine ⟨h.within, fun htrue ↦ absurd (hfalse.symm.trans htrue) false_ne_true, nofun, h.uri,
    fun _ ↦ ⟨hfalse, (announced_of_reset hreset).symm, ?_⟩⟩
  rw [connectionOptions_of_reset hreset]
  exact forall_mem_nil _

/-- **A call of a modest request keeps the limits.** -/
theorem Tracks.step (h : Tracks limits c m φ) (hmodest : c.Modest limits e)
    (hnext : φ.next e = some φ') (hle : (m.next e).got ≤ (m.next e).limit)
    (hstep : c.step limits e = some c') : Tracks limits c' (m.next e) φ' := by
  cases e with
  | requestBegin method entity version =>
    cases φ <;> cases hnext
    exact h.begin hmodest hstep
  | responseBegin version code text | messageBegin =>
    cases φ <;> cases hnext
    cases hstep
    exact h.other
  | header name value =>
    cases φ <;> cases hnext
    exact h.onMessageHeader hmodest hstep
  | headerEnd =>
    cases φ <;> cases hnext
    exact h.onMessageHeaderEnd hstep
  | content chunk =>
    cases φ <;> cases hnext
    cases hstep
    exact h.onMessageContent chunk hle
  | messageEnd =>
    cases φ <;> cases hnext
    cases hstep
    exact h.reset
  | protocolError code =>
    cases hstep
    cases φ <;> cases hnext <;> exact h.failed

theorem Tracks.run (h : Tracks limits c m φ) (hmodest : c.Modestly limits es)
    (hrun : φ.run es = some φ') (hwithin : m.Within es) :
    ∀ r ∈ (c.run limits es).handled, Within limits r := by
  induction es generalizing c m φ with
  | nil => exact h.within
  | cons e es ih =>
    obtain ⟨φ₁, hnext, hrun₁⟩ := bind_eq_some_iff.1 hrun
    rw [HttpChannel.run]
    rcases hstep : c.step limits e with - | c₁
    · exact h.within
    · exact ih (h.step hmodest.1 hnext hwithin.2.got_le hstep) (hmodest.2 c₁ hstep) hrun₁ hwithin.2

theorem exists_parse_of_loopFor (fuel : ℕ) (b : Bool) (m : Bytes) (test : List Event → Bool)
    (h : (loopFor fuel (init .request) m 0).any (fun r ↦ completes b m r && test r.1) = true) :
    ∃ es s, parse .request [m] = (es, some s) ∧ s.1.chunked = b ∧ test es = true := by
  obtain ⟨⟨es, x⟩, hr, hx⟩ := any_eq_true _ _ |>.1 h
  have hloop := loop_of_loopFor fuel hr
  obtain ⟨p, k⟩ | ⟨p, k⟩ | p := x
  · cases hx
  · simp only [completes, and_eq_true, decide_eq_true_eq] at hx
    obtain ⟨⟨⟨rfl, -⟩, hchunked⟩, htest⟩ := hx
    refine ⟨es, (p, m.length), ?_, hchunked, htest⟩
    rw [parse, Trace.feed, nil_append, feed, parseFragment, hloop]
    simp [Trace.feed]
  · cases hx

/-- A request with content of one byte. -/
def oneByteRequest : Bytes :=
  ofString "P / HTTP/1.0\r\nContent-Length:1\r\n\r\nx"

def oneChunkRequest : Bytes :=
  ofString "P / HTTP/1.0\r\nTransfer-Encoding:chunked\r\n\r\n1\r\nx\r\n0\r\n\r\n"

-- Nor does anything look at the length of a URI.
example : ∃ es s, parse .request [oneByteRequest] = (es, some s) ∧ s.1.chunked = false ∧
    decide ((run ⟨0, 1⟩ {} es).handled = [⟨ofString "/", ofString "x"⟩]) = true :=
  exists_parse_of_loopFor 80 false oneByteRequest
    (fun es ↦ (run ⟨0, 1⟩ {} es).handled = [⟨ofString "/", ofString "x"⟩]) (by decide +kernel)

end

end HttpChannel

end Xzero.Http
