import Xzero.Library.Resume
import Xzero.Util.Buffer

/-!
# The HTTP/1 parser

`xzero/http/http1/Parser.cc`. The parser is fed with fragments of a stream, of which it may leave
the last part. It goes through the bytes in a loop that switches on its state, and reports to a
listener what it has found.

Fragments are parts of one buffer that grows, and the parser refers to methods, names and values by
their place in it. Here a fragment is what the buffer has from some position on, and a reference is
a position and a size. The members of type `int` and `ssize_t` wrap around.
-/

namespace Xzero.Http.Http1

open Util BitVec Buffer

inductive ParseMode
  | message | request | response
  deriving DecidableEq, Repr

inductive State
  /-- The value of a member that was not set -/
  | unset
  | protocolError | messageBegin
  | requestLineBegin | requestMethod | requestEntityBegin | requestEntity
  | requestProtocolBegin | requestProtocolT1 | requestProtocolT2 | requestProtocolP
  | requestProtocolSlash | requestProtocolVersionMajor | requestProtocolVersionMinor
  | requestLineLf | request09Lf
  | statusLineBegin | statusProtocolBegin | statusProtocolT1 | statusProtocolT2 | statusProtocolP
  | statusProtocolSlash | statusProtocolVersionMajor | statusProtocolVersionMinor
  | statusCodeBegin | statusCode | statusMessageBegin | statusMessage | statusMessageLf
  | headerNameBegin | headerName | headerColon | headerValueBegin | headerValue | headerValueLf
  | headerValueEnd | headerEndLf
  | lwsBegin | lwsLf | lwsSpHtBegin | lwsSpHt
  | contentBegin | content | contentEndless
  | contentChunkSizeBegin | contentChunkSize | contentChunkLf1 | contentChunkBody
  | contentChunkLf2 | contentChunkCr3 | contentChunkLf3
  deriving DecidableEq, Repr

/-- The states that white space leads to (`lwsNext_`). -/
def State.afterLws : State → Bool
  | unset | headerColon | headerValueBegin | headerValue => true
  | _ => false

/-- The states that a line end leads to without white space (`lwsNull_`). -/
def State.afterLf : State → Bool
  | unset | headerValueEnd | protocolError => true
  | _ => false

/-- An iteration that takes no byte leads to a state of a lower rank. -/
def State.rank : State → ℕ
  | unset | protocolError => 0
  | messageBegin | headerValueEnd | contentBegin => 2
  | lwsBegin | lwsSpHtBegin | lwsSpHt => 3
  | _ => 1

theorem State.rank_of_afterLws {s : State} (h : s.afterLws = true) : s.rank < 3 := by
  revert h
  cases s <;> decide

theorem State.rank_of_afterLf {s : State} (h : s.afterLf = true) : s.rank < 3 := by
  revert h
  cases s <;> decide

inductive HttpVersion
  | unknown | version09 | version10 | version11
  deriving DecidableEq, Repr

/-- The calls of a listener, with the bytes that are referred to. -/
inductive Event
  | requestBegin (method entity : Bytes) (version : HttpVersion)
  | responseBegin (version : HttpVersion) (code : BitVec 32) (text : Bytes)
  | messageBegin
  | header (name value : Bytes)
  | headerEnd
  | content (chunk : Bytes)
  | messageEnd
  | protocolError (code : BitVec 32)
  deriving DecidableEq, Repr

/-- A `BufferRef` into the buffer. -/
structure Ref where
  offset : ℕ
  size : ℕ
  deriving DecidableEq, Repr

namespace Ref

def shr (r : Ref) (n : ℕ) : Ref := { r with size := r.size + n }

def clear (r : Ref) : Ref := { r with size := 0 }

def bytes (r : Ref) (data : Bytes) : Bytes := (data.drop r.offset).take r.size

end Ref

structure Parser where
  mode : ParseMode
  state : State
  /-- The state to apply on white space. -/
  lwsNext : { s : State // s.afterLws = true }
  /-- The state to apply on a line end without white space. -/
  lwsNull : { s : State // s.afterLf = true }
  method : Ref
  entity : Ref
  versionMajor : BitVec 32
  versionMinor : BitVec 32
  code : BitVec 32
  message : Ref
  name : Ref
  value : Ref
  chunked : Bool
  contentLength : BitVec 64
  deriving DecidableEq, Repr

/-! ### Characters -/

def CR : UInt8 := 13
def LF : UInt8 := 10
def SP : UInt8 := 32
def HT : UInt8 := 9

def ascii (s : List Char) : Bytes := s.map Char.toUInt8

def isChar (value : UInt8) : Bool := value ≤ 127

def isControl (value : UInt8) : Bool := value ≤ 31 || value = 127

def isSeparator (value : UInt8) : Bool :=
  value ∈ ascii ['(', ')', '<', '>', '@', ',', ';', ':', '\\', '"', '/', '[', ']', '?', '=', '{', '}']
    || value = SP || value = HT

def isToken (value : UInt8) : Bool := isChar value && !(isControl value || isSeparator value)

def isText (value : UInt8) : Bool := !isControl value || value = SP || value = HT

def isPrint (value : UInt8) : Bool := 32 ≤ value && value ≤ 126

def isDigit (value : UInt8) : Bool := 48 ≤ value && value ≤ 57

def isXDigit (value : UInt8) : Bool :=
  isDigit value || (65 ≤ value && value ≤ 70) || (97 ≤ value && value ≤ 102)

def makeVersion (versionMajor versionMinor : BitVec 32) : HttpVersion :=
  if versionMajor = 0 then if versionMinor = 9 then .version09 else .unknown
  else if versionMajor = 1 then
    if versionMinor = 0 then .version10 else if versionMinor = 1 then .version11 else .unknown
  else .unknown

/-! ### One iteration -/

/-- What one iteration of the loop does. -/
inductive Iteration
  /-- It takes some bytes and goes on. -/
  | next (p : Parser) (n : ℕ) (es : List Event)
  /-- It takes some bytes and leaves the loop (`goto done`). -/
  | done (p : Parser) (n : ℕ) (es : List Event)
  /-- It raises `HttpVersionNotSupported`. -/
  | raise (p : Parser)

namespace Parser

/-- `Parser(mode, listener)`. -/
def init (mode : ParseMode) : Parser where
  mode := mode
  state := .messageBegin
  lwsNext := ⟨.unset, rfl⟩
  lwsNull := ⟨.unset, rfl⟩
  method := ⟨0, 0⟩
  entity := ⟨0, 0⟩
  versionMajor := 0
  versionMinor := 0
  code := 0
  message := ⟨0, 0⟩
  name := ⟨0, 0⟩
  value := ⟨0, 0⟩
  chunked := false
  contentLength := -1

def isContentExpected (p : Parser) : Bool :=
  (0 : BitVec 64).slt p.contentLength || p.chunked || (p.contentLength.slt 0 && p.mode ≠ .request)

def nextChar (p : Parser) : Iteration := .next p 1 []

/-- `onProtocolError(HttpStatus::BadRequest)`. -/
def badRequest (p : Parser) : Iteration :=
  .next { p with state := .protocolError } 0 [.protocolError 400]

/-- One particular byte is accepted. -/
def expect (p : Parser) (c byte : UInt8) (state : State) : Iteration :=
  if c = byte then { p with state := state }.nextChar else p.badRequest

/-- The major version, up to the dot. -/
def readMajor (p : Parser) (c : UInt8) (state : State) : Iteration :=
  if c = '.'.toUInt8 then { p with state := state }.nextChar
  else if !isDigit c then p.badRequest
  else { p with versionMajor := p.versionMajor * 10 + BitVec.ofNat 32 (c.toNat - 48) }.nextChar

/-- The minor version, up to the byte after it. -/
def readMinor (p : Parser) (c byte : UInt8) (state : State) : Iteration :=
  if c = byte then { p with state := state }.nextChar
  else if !isDigit c then p.badRequest
  else { p with versionMinor := p.versionMinor * 10 + BitVec.ofNat 32 (c.toNat - 48) }.nextChar

/-- The case `STATUS_CODE`. -/
def readStatusCode (p : Parser) (c : UInt8) : Iteration :=
  if isDigit c then { p with code := p.code * 10 + BitVec.ofNat 32 (c.toNat - 48) }.nextChar
  else if c = SP then { p with state := .statusMessageBegin }.nextChar
  else if c = CR then { p with state := .statusMessageLf }.nextChar
  else p.badRequest

def readDigit (p : Parser) (n : ℕ) : Iteration :=
  { p with contentLength := p.contentLength * 16 + BitVec.ofNat 64 n }.nextChar

/-- The case `CONTENT_CHUNK_SIZE`. -/
def readChunkSize (p : Parser) (c : UInt8) : Iteration :=
  if c = CR then { p with state := .contentChunkLf1 }.nextChar
  else if 48 ≤ c ∧ c ≤ 57 then p.readDigit (c.toNat - 48)
  else if 97 ≤ c ∧ c ≤ 102 then p.readDigit (10 + (c.toNat - 97))
  else if 65 ≤ c ∧ c ≤ 70 then p.readDigit (10 + (c.toNat - 65))
  else p.badRequest

/-- `HEADER_VALUE_END`: what the parser takes from a header. -/
def acceptHeader (p : Parser) (name value : Bytes) : Parser × List Event :=
  if iequals name
      (ascii ['C', 'o', 'n', 't', 'e', 'n', 't', '-', 'L', 'e', 'n', 'g', 't', 'h']) then
    ({ p with contentLength := (toInt value).signExtend 64 }, [.header name value])
  else if iequals name (ascii ['T', 'r', 'a', 'n', 's', 'f', 'e', 'r', '-',
      'E', 'n', 'c', 'o', 'd', 'i', 'n', 'g']) then
    if iequals value (ascii ['c', 'h', 'u', 'n', 'k', 'e', 'd']) then
      ({ p with chunked := true }, [])
    else (p, [.header name value])
  else (p, [.header name value])

/-- One iteration of the loop of `parseFragment`, on the byte `c` at the position `pos`. -/
def iterate (p : Parser) (data : Bytes) (pos : ℕ) (c : UInt8) : Iteration :=
  let here : Ref := ⟨pos, 1⟩
  let rest := data.length - pos
  match p.state with
  | .messageBegin =>
    let p := { p with contentLength := -1 }
    match p.mode with
    | .request =>
      .next { p with state := .requestLineBegin, versionMajor := 0, versionMinor := 0 } 0 []
    | .response =>
      .next { p with state := .statusLineBegin, code := 0, versionMajor := 0, versionMinor := 0 } 0 []
    | .message => .next { p with state := .headerNameBegin } 0 [.messageBegin]
  | .requestLineBegin =>
    if isToken c then { p with state := .requestMethod, method := here }.nextChar else p.badRequest
  | .requestMethod =>
    if c = SP then { p with state := .requestEntityBegin }.nextChar
    else if isToken c then { p with method := p.method.shr 1 }.nextChar
    else p.badRequest
  | .requestEntityBegin =>
    if isPrint c then { p with state := .requestEntity, entity := here }.nextChar else p.badRequest
  | .requestEntity =>
    if c = SP then { p with state := .requestProtocolBegin }.nextChar
    else if isPrint c then { p with entity := p.entity.shr 1 }.nextChar
    else if c = CR then { p with state := .request09Lf }.nextChar
    else p.badRequest
  | .request09Lf =>
    -- The line feed is not taken.
    if c = LF then
      .done p 0
        [.requestBegin (p.method.bytes data) (p.entity.bytes data) .version09, .headerEnd, .messageEnd]
    else p.badRequest
  | .requestProtocolBegin => p.expect c 'H'.toUInt8 .requestProtocolT1
  | .requestProtocolT1 => p.expect c 'T'.toUInt8 .requestProtocolT2
  | .requestProtocolT2 => p.expect c 'T'.toUInt8 .requestProtocolP
  | .requestProtocolP => p.expect c 'P'.toUInt8 .requestProtocolSlash
  | .requestProtocolSlash => p.expect c '/'.toUInt8 .requestProtocolVersionMajor
  | .requestProtocolVersionMajor => p.readMajor c .requestProtocolVersionMinor
  | .requestProtocolVersionMinor => p.readMinor c CR .requestLineLf
  | .requestLineLf =>
    if c = LF then
      let p := { p with state := .headerNameBegin }
      match makeVersion p.versionMajor p.versionMinor with
      | .unknown => .raise p
      | version =>
        .next p 1 [.requestBegin (p.method.bytes data) (p.entity.bytes data) version]
    else p.badRequest
  | .statusLineBegin | .statusProtocolBegin => p.expect c 'H'.toUInt8 .statusProtocolT1
  | .statusProtocolT1 => p.expect c 'T'.toUInt8 .statusProtocolT2
  | .statusProtocolT2 => p.expect c 'T'.toUInt8 .statusProtocolP
  | .statusProtocolP => p.expect c 'P'.toUInt8 .statusProtocolSlash
  | .statusProtocolSlash => p.expect c '/'.toUInt8 .statusProtocolVersionMajor
  | .statusProtocolVersionMajor => p.readMajor c .statusProtocolVersionMinor
  | .statusProtocolVersionMinor => p.readMinor c SP .statusCodeBegin
  | .statusCodeBegin =>
    if !isDigit c then p.badRequest else { p with state := .statusCode }.readStatusCode c
  | .statusCode => p.readStatusCode c
  | .statusMessageBegin =>
    if isText c then { p with state := .statusMessage, message := here }.nextChar else p.badRequest
  | .statusMessage =>
    if isText c && c ≠ CR && c ≠ LF then { p with message := p.message.shr 1 }.nextChar
    else if c = CR then { p with state := .statusMessageLf }.nextChar
    else p.badRequest
  | .statusMessageLf =>
    if c = LF then
      let p := { p with state := .headerNameBegin }
      match makeVersion p.versionMajor p.versionMinor with
      | .unknown => .raise p
      | version => .next p 1 [.responseBegin version p.code (p.message.bytes data)]
    else p.badRequest
  | .headerNameBegin =>
    if isToken c then { p with name := here, state := .headerName }.nextChar
    else if c = CR then { p with state := .headerEndLf }.nextChar
    else p.badRequest
  | .headerName =>
    if isToken c then { p with name := p.name.shr 1 }.nextChar
    else if c = ':'.toUInt8 then
      { p with
        state := .lwsBegin, lwsNext := ⟨.headerValueBegin, rfl⟩, lwsNull := ⟨.headerValueEnd, rfl⟩
        }.nextChar
    else if c = CR then
      { p with state := .lwsLf, lwsNext := ⟨.headerColon, rfl⟩, lwsNull := ⟨.protocolError, rfl⟩
        }.nextChar
    else p.badRequest
  | .headerColon =>
    if c = ':'.toUInt8 then
      { p with
        state := .lwsBegin, lwsNext := ⟨.headerValueBegin, rfl⟩, lwsNull := ⟨.headerValueEnd, rfl⟩
        }.nextChar
    else p.badRequest
  | .lwsBegin =>
    if c = CR then { p with state := .lwsLf }.nextChar
    else if c = SP ∨ c = HT then { p with state := .lwsSpHt }.nextChar
    else if isPrint c then .next { p with state := p.lwsNext } 0 []
    else p.badRequest
  | .lwsLf => p.expect c LF .lwsSpHtBegin
  | .lwsSpHtBegin =>
    if c = SP ∨ c = HT then
      { p with
        value := if p.value.size ≠ 0 then p.value.shr 3 else p.value, state := .lwsSpHt }.nextChar
    else
      .next { p with state := p.lwsNull } 0
        (if p.lwsNull.1 = .protocolError then [.protocolError 400] else [])
  | .lwsSpHt =>
    if c = SP ∨ c = HT then
      { p with value := if p.value.size ≠ 0 then p.value.shr 1 else p.value }.nextChar
    else .next { p with state := p.lwsNext } 0 []
  | .headerValueBegin =>
    if isText c then { p with value := here, state := .headerValue }.nextChar
    else if c = CR then { p with state := .headerValueLf }.nextChar
    else p.badRequest
  | .headerValue =>
    if c = CR then
      { p with state := .lwsLf, lwsNext := ⟨.headerValue, rfl⟩, lwsNull := ⟨.headerValueEnd, rfl⟩
        }.nextChar
    else if isText c then { p with value := p.value.shr 1 }.nextChar
    else p.badRequest
  | .headerValueLf => p.expect c LF .headerValueEnd
  | .headerValueEnd =>
    let r := p.acceptHeader (p.name.bytes data) (p.value.bytes data)
    .next { r.1 with name := p.name.clear, value := p.value.clear, state := .headerNameBegin } 0 r.2
  | .headerEndLf =>
    if c = LF then
      if p.isContentExpected then .next { p with state := .contentBegin } 1 [.headerEnd]
      else .done { p with state := .messageBegin } 1 [.headerEnd, .messageEnd]
    else p.badRequest
  | .contentBegin =>
    if p.chunked then .next { p with state := .contentChunkSizeBegin } 0 []
    else if !p.contentLength.slt 0 then .next { p with state := .content } 0 []
    else .next { p with state := .contentEndless } 0 []
  | .contentEndless => .next p rest [.content (data.drop pos)]
  | .content =>
    let chunkSize := min p.contentLength.toNat rest
    let p := { p with contentLength := p.contentLength - BitVec.ofNat 64 chunkSize }
    let chunk := (data.drop pos).take chunkSize
    if p.contentLength = 0 then
      .done { p with state := .messageBegin } chunkSize [.content chunk, .messageEnd]
    else .next p chunkSize [.content chunk]
  | .contentChunkSizeBegin =>
    if !isXDigit c then p.badRequest
    else { p with state := .contentChunkSize, contentLength := 0 }.readChunkSize c
  | .contentChunkSize => p.readChunkSize c
  | .contentChunkLf1 =>
    p.expect c LF (if p.contentLength ≠ 0 then .contentChunkBody else .contentChunkCr3)
  | .contentChunkBody =>
    if p.contentLength ≠ 0 then
      let chunkSize := min p.contentLength.toNat rest
      .next { p with contentLength := p.contentLength - BitVec.ofNat 64 chunkSize } chunkSize
        [.content ((data.drop pos).take chunkSize)]
    else p.expect c CR .contentChunkLf2
  | .contentChunkLf2 => p.expect c LF .contentChunkSize
  | .contentChunkCr3 => p.expect c CR .contentChunkLf3
  | .contentChunkLf3 =>
    if c ≠ LF then p.badRequest else .done { p with state := .messageBegin } 1 [.messageEnd]
  | .protocolError => .done p 0 []
  | .unset => .done p 0 []

/-! ### The states of the content -/

section

variable {p : Parser} {data : Bytes} {pos : ℕ} {c : UInt8}

theorem iterate_headerEndLf (hs : p.state = .headerEndLf) : p.iterate data pos c =
    if c = LF then
      if p.isContentExpected then .next { p with state := .contentBegin } 1 [.headerEnd]
      else .done { p with state := .messageBegin } 1 [.headerEnd, .messageEnd]
    else p.badRequest := by
  simp only [iterate, hs]

theorem iterate_contentBegin_of_chunked (hs : p.state = .contentBegin) (hchunked : p.chunked = true) :
    p.iterate data pos c = .next { p with state := .contentChunkSizeBegin } 0 [] := by
  simp only [iterate, hs, hchunked, if_true]

theorem iterate_contentChunkSizeBegin (hs : p.state = .contentChunkSizeBegin) :
    p.iterate data pos c = if !isXDigit c then p.badRequest
      else { p with state := .contentChunkSize, contentLength := 0 }.readChunkSize c := by
  simp only [iterate, hs]

theorem iterate_contentChunkSize (hs : p.state = .contentChunkSize) :
    p.iterate data pos c = p.readChunkSize c := by
  simp only [iterate, hs]

theorem iterate_contentChunkLf1 (hs : p.state = .contentChunkLf1) : p.iterate data pos c =
    p.expect c LF (if p.contentLength ≠ 0 then .contentChunkBody else .contentChunkCr3) := by
  simp only [iterate, hs]

theorem iterate_contentChunkBody (hs : p.state = .contentChunkBody) (hlength : p.contentLength ≠ 0) :
    p.iterate data pos c =
      .next { p with contentLength :=
          p.contentLength - BitVec.ofNat 64 (min p.contentLength.toNat (data.length - pos)) }
        (min p.contentLength.toNat (data.length - pos))
        [.content ((data.drop pos).take (min p.contentLength.toNat (data.length - pos)))] := by
  simp only [iterate, hs, if_pos hlength]

theorem iterate_contentChunkBody_of_zero (hs : p.state = .contentChunkBody)
    (hlength : p.contentLength = 0) : p.iterate data pos c = p.expect c CR .contentChunkLf2 := by
  simp only [iterate, hs, hlength, ne_eq, not_true_eq_false, if_false]

theorem iterate_contentChunkCr3 (hs : p.state = .contentChunkCr3) :
    p.iterate data pos c = p.expect c CR .contentChunkLf3 := by
  simp only [iterate, hs]

theorem iterate_contentChunkLf3 (hs : p.state = .contentChunkLf3) : p.iterate data pos c =
    if c ≠ LF then p.badRequest else .done { p with state := .messageBegin } 1 [.messageEnd] := by
  simp only [iterate, hs]

end

/-! ### The loop -/

/-- An iteration takes bytes of the fragment, or it goes to a state of a lower rank. -/
def Descends (p : Parser) (rest : ℕ) : Iteration → Prop
  | .next p' n _ => n ≤ rest ∧ (0 < n ∨ p'.state.rank < p.state.rank)
  | .done _ n _ => n ≤ rest
  | .raise _ => True

section

variable {p p' : Parser} {data : Bytes} {pos n rest : ℕ} {c : UInt8} {es : List Event}

theorem descends_nextChar (hrest : 0 < rest) (p' : Parser) : p.Descends rest p'.nextChar :=
  ⟨hrest, .inl one_pos⟩

theorem descends_badRequest (hp : 0 < p.state.rank) (p' : Parser) : p.Descends rest p'.badRequest :=
  ⟨Nat.zero_le _, .inr hp⟩

theorem descends_zero (hp : p'.state.rank < p.state.rank) : p.Descends rest (.next p' 0 es) :=
  ⟨Nat.zero_le _, .inr hp⟩

theorem descends_ite {b : Prop} [Decidable b] {i i' : Iteration} (hi : p.Descends rest i)
    (hi' : p.Descends rest i') : p.Descends rest (if b then i else i') := by
  split
  · exact hi
  · exact hi'

theorem min_pos_of_ne_zero (hrest : 0 < rest) {length : BitVec 64} (hlength : length ≠ 0) :
    0 < min length.toNat rest := by
  refine Nat.lt_min.2 ⟨Nat.pos_of_ne_zero fun hzero ↦ hlength ?_, hrest⟩
  exact eq_of_toNat_eq hzero

theorem iterate_descends (hpos : pos < data.length) :
    p.Descends (data.length - pos) (p.iterate data pos c) := by
  have hrest : 0 < data.length - pos := Nat.sub_pos_of_lt hpos
  have hnext (p' : Parser) := descends_nextChar (p := p) hrest p'
  have hlws := State.rank_of_afterLws p.lwsNext.2
  have hlf := State.rank_of_afterLf p.lwsNull.2
  rcases hs : p.state
  all_goals
    have hrank : p.state.rank = State.rank _ := congrArg State.rank hs
    simp only [iterate, hs, expect, readMajor, readMinor, readStatusCode, readChunkSize, readDigit]
  case unset => exact Nat.zero_le _
  case protocolError => exact Nat.zero_le _
  all_goals
    have hbad (p' : Parser) : p.Descends (data.length - pos) p'.badRequest :=
      descends_badRequest (hrank ▸ by decide) p'
  case messageBegin =>
    rcases p.mode <;> exact descends_zero (hrank.symm ▸ Nat.one_lt_two)
  case requestLineLf | statusMessageLf =>
    refine descends_ite ?_ (hbad _)
    rcases makeVersion p.versionMajor p.versionMinor with - | - | - | -
    · trivial
    all_goals exact ⟨hrest, Or.inl one_pos⟩
  case request09Lf => exact descends_ite (Nat.zero_le _) (hbad _)
  case headerValueEnd => exact descends_zero (hrank.symm ▸ Nat.one_lt_two)
  case headerEndLf => exact descends_ite (descends_ite ⟨hrest, Or.inl one_pos⟩ hrest) (hbad _)
  case lwsBegin =>
    exact descends_ite (hnext _) (descends_ite (hnext _)
      (descends_ite (descends_zero (hrank ▸ hlws)) (hbad _)))
  case lwsSpHtBegin => exact descends_ite (hnext _) (descends_zero (hrank ▸ hlf))
  case lwsSpHt => exact descends_ite (hnext _) (descends_zero (hrank ▸ hlws))
  case contentBegin =>
    have hlt : 1 < p.state.rank := hrank ▸ Nat.one_lt_two
    exact descends_ite (descends_zero hlt) (descends_ite (descends_zero hlt) (descends_zero hlt))
  case contentEndless => exact ⟨le_rfl, Or.inl hrest⟩
  case content =>
    split
    · exact min_le_right _ _
    · next hne =>
      refine ⟨min_le_right _ _, Or.inl (min_pos_of_ne_zero hrest fun hzero ↦ hne ?_)⟩
      simp [hzero]
  case contentChunkBody =>
    split
    · next hne => exact ⟨min_le_right _ _, Or.inl (min_pos_of_ne_zero hrest hne)⟩
    · exact descends_ite (hnext _) (hbad _)
  case contentChunkLf3 => exact descends_ite (hbad _) hrest
  -- The other states take a byte or report an error.
  all_goals repeat' first | exact hnext _ | exact hbad _ | apply descends_ite

theorem lt_of_iterate (hpos : pos < data.length) (h : p.iterate data pos c = .next p' n es) :
    Prod.Lex (· < ·) (· < ·) (data.length - (pos + n), p'.state.rank)
      (data.length - pos, p.state.rank) := by
  have hdesc := h ▸ iterate_descends hpos
  obtain ⟨hle, hlt | hlt⟩ := hdesc
  · exact Prod.Lex.left _ _ (by omega)
  · rcases Nat.eq_zero_or_pos n with rfl | hn
    · exact Prod.Lex.right _ hlt
    · exact Prod.Lex.left _ _ (by omega)

theorem add_le_of_next (hpos : pos < data.length) (h : p.iterate data pos c = .next p' n es) :
    pos + n ≤ data.length :=
  Nat.add_le_of_le_sub' hpos.le (h ▸ iterate_descends hpos).1

theorem add_le_of_done (hpos : pos < data.length) (h : p.iterate data pos c = .done p' n es) :
    pos + n ≤ data.length := by
  have hdesc := h ▸ iterate_descends hpos
  exact Nat.add_le_of_le_sub' hpos.le hdesc

end

/-- How the loop ends. -/
inductive Exit
  | reached (p : Parser) (pos : ℕ)
  /-- Before it, or by `goto done`. -/
  | done (p : Parser) (pos : ℕ)
  | raised (p : Parser)

/-- The loop of `parseFragment`. -/
def loop (p : Parser) (data : Bytes) (pos : ℕ) : List Event × Exit :=
  if hpos : pos < data.length then
    match hit : p.iterate data pos data[pos] with
    | .next p' n es =>
      let r := loop p' data (pos + n)
      (es ++ r.1, r.2)
    | .done p' n es => (es, .done p' (pos + n))
    | .raise p' => ([], .raised p')
  else ([], .reached p pos)
termination_by (data.length - pos, p.state.rank)
decreasing_by exact lt_of_iterate hpos hit

/-- What a call of `parseFragment` leads to. -/
inductive Outcome
  /-- It returns the number of bytes it has taken. -/
  | returned (p : Parser) (nparsed : ℕ)
  /-- It raises `HttpVersionNotSupported`. -/
  | raised (p : Parser)

/-- `parseFragment`, of what there is in the buffer from `inputOffset` on. -/
def parseFragment (p : Parser) (data : Bytes) (inputOffset : ℕ) : List Event × Outcome :=
  match p.loop data inputOffset with
  | (es, .raised p') => (es, .raised p')
  | (es, .done p' pos) => (es, .returned p' (pos - inputOffset))
  | (es, .reached p' pos) =>
    if p'.state = .contentBegin ∧ p'.contentLength.slt 0 = true ∧ p'.chunked = false ∧
        p'.mode ≠ .message then
      (es ++ [.messageEnd], .returned { p' with state := .messageBegin } (pos - inputOffset))
    else (es, .returned p' (pos - inputOffset))

/-- Bytes that were not taken are given to the parser again, until it takes nothing or everything.
-/
def feed (data : Bytes) (s : Parser × ℕ) : Trace Event (Parser × ℕ) :=
  match s.1.parseFragment data s.2 with
  | (es, .raised _) => (es, none)
  | (es, .returned p' nparsed) =>
    if 0 < nparsed ∧ s.2 + nparsed < data.length then
      let r := feed data (p', s.2 + nparsed)
      (es ++ r.1, r.2)
    else (es, some (p', s.2 + nparsed))
termination_by data.length - s.2

/-- A new parser is given fragments of a stream, each with what it has left of those before. -/
def parse (mode : ParseMode) (fragments : List Bytes) : Trace Event (Parser × ℕ) :=
  .feed feed [] (init mode, 0) fragments

end Parser

end Xzero.Http.Http1
