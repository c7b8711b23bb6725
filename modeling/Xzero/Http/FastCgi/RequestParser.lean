import Xzero.Http.FastCgi.Params
import Xzero.Http.FastCgi.Record
import Xzero.Http.HeaderFieldList
import Xzero.Http.Http1.Grammar

/-!
# The parser of FastCGI requests

`xzero/http/fastcgi/RequestParser.cc`: records of several requests may come one between the other,
so there is a `StreamState` for every request that was begun. Its listener is called for the
parameters when they are over, and for content as soon as it comes; the member `body`, in which
content should wait for the parameters, stays empty.

A listener is known here by its number, in the order in which `onCreateChannel_` has made them.
Records come with the memory behind their content, which the reader of parameters may get to.
-/

namespace Xzero.Http.FastCgi

open Util Http1 Function HeaderFieldList

/-- What the parser calls. -/
inductive Call
  /-- `onCreateChannel_`, and the listener it returns. -/
  | createChannel (requestId : UInt16) (keepAlive : Bool) (listener : ℕ)
  | unknownPacket (requestId : UInt16) (type : UInt8)
  | abortRequest (requestId : UInt16)
  | event (listener : ℕ) (e : Event)
  deriving DecidableEq, Repr

structure StreamState where
  listener : ℕ
  totalBytesReceived : ℕ := 0
  paramsFullyReceived : Bool := false
  contentFullyReceived : Bool := false
  params : HeaderFieldList := []
  headers : HeaderFieldList := []
  body : Bytes := []
  deriving DecidableEq, Repr

structure RequestParser where
  /-- `streams_`. -/
  streams : UInt16 → Option StreamState := fun _ ↦ none
  listeners : ℕ := 0

namespace StreamState

def onParam (s : StreamState) (param : Bytes × Bytes) : StreamState :=
  if (ofString "HTTP_").isPrefixOf param.1 then
    let name := (param.1.drop 5).map fun ch ↦ if ch = '_'.toUInt8 then '-'.toUInt8 else ch
    { s with headers := s.headers ++ [(name, param.2)] }
  else { s with params := s.params ++ [param] }

def version (s : StreamState) : HttpVersion :=
  let serverProtocol := get s.params (ofString "SERVER_PROTOCOL")
  if serverProtocol = ofString "HTTP/1.1" then .version11
  else if serverProtocol = ofString "HTTP/1.0" then .version10
  else if serverProtocol = ofString "HTTP/0.9" then .version09
  else .unknown

/-- `onMessageEnd`, if everything was received. -/
def ending (s : StreamState) : List Event :=
  if s.paramsFullyReceived && s.contentFullyReceived then [.messageEnd] else []

/-- What the listener is called for when the parameters are over. -/
def paramsEvents (s : StreamState) : List Event :=
  .requestBegin (get s.params (ofString "REQUEST_METHOD"))
      (get s.params (ofString "REQUEST_URI")) s.version ::
    (s.headers.map fun header ↦ .header header.1 header.2) ++
    .headerEnd :: (if s.body.isEmpty then [] else [.content s.body]) ++ s.ending

end StreamState

namespace RequestParser

variable (p : RequestParser) (r : Record)

/-- The stream of a request is another one, or there is none. -/
def setStream (requestId : UInt16) (s : Option StreamState) : RequestParser :=
  { p with streams := update p.streams requestId s }

@[simp] theorem streams_setStream_self (requestId : UInt16) (s : Option StreamState) :
    (p.setStream requestId s).streams requestId = s := update_self _ _ _

theorem streams_setStream_of_ne {requestId i : UInt16} (h : i ≠ requestId) (s : Option StreamState) :
    (p.setStream requestId s).streams i = p.streams i := update_of_ne h _ _

def notify (s : StreamState) (es : List Event) : Trace Call RequestParser :=
  (es.map (Call.event s.listener), some (p.setStream r.requestId s))

/-- `beginRequest`: a request that was begun already is an exception. -/
def beginRequest (memory : Bytes) : Trace Call RequestParser :=
  match p.streams r.requestId, memory[2]? with
  | some _, _ | none, none => ([], none)
  | none, some flags =>
    ([.createChannel r.requestId (flags &&& 1 = 1) p.listeners], some { p.setStream r.requestId
        (some { listener := p.listeners, totalBytesReceived := r.size }) with
          listeners := p.listeners + 1 })

def streamParams (s : StreamState) (memory : Bytes) : Trace Call RequestParser :=
  if r.content.isEmpty then
    let s := { s with paramsFullyReceived := true }
    p.notify r s s.paramsEvents
  else
    match processParams r.content.length memory with
    | none => ([], none)
    | some params => p.notify r (params.foldl .onParam s) []

def streamStdIn (s : StreamState) : Trace Call RequestParser :=
  let s := { s with contentFullyReceived := s.contentFullyReceived || r.content.isEmpty }
  p.notify r s (.content r.content :: s.ending)

def abortRequest : Trace Call RequestParser :=
  ([.abortRequest r.requestId], some (p.setStream r.requestId none))

/-- `process`, with the memory behind the content of the record. -/
def process (behind : Bytes) : Trace Call RequestParser :=
  if r.type = RecordType.beginRequest.code then p.beginRequest r (r.content ++ behind)
  else if r.type ∈ [RecordType.abortRequest.code, RecordType.params.code, RecordType.stdIn.code,
      RecordType.data.code] then
    match p.streams r.requestId with
    | none => .pure p
    | some s =>
      let s := { s with totalBytesReceived := s.totalBytesReceived + r.size }
      if r.type = RecordType.abortRequest.code then p.abortRequest r
      else if r.type = RecordType.params.code then p.streamParams r s (r.content ++ behind)
      else if r.type = RecordType.stdIn.code then p.streamStdIn r s
      else p.notify r s []
  else ([.unknownPacket r.requestId r.type], some p)

def run (p : RequestParser) : List (Record × Bytes) → Trace Call RequestParser
  | [] => .pure p
  | (r, behind) :: rs => (p.process r behind).bind fun p' ↦ p'.run rs

end RequestParser

end Xzero.Http.FastCgi
