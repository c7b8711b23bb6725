import Xzero.Http.FastCgi.Params
import Xzero.Http.FastCgi.Record
import Xzero.Http.HeaderFieldList
import Xzero.Http.Http1.Parser

/-!
# The generator of FastCGI requests

`xzero/http/fastcgi/Generator.cc`, for requests: the parameters, the body and its end, cut into
records of at most `0xFFFF` bytes. What is in a buffer goes into the generator's own buffer, with
padding; a file is handed to the writer piece by piece, each after its header.

No record that begins a request is generated, and `to_string` of a version has no `HTTP/` in front
of it. **The pieces of a body are the body again** (`content_writeLoop`, `content_fileLoop`), and
**a record that is written from a buffer has a size that is a multiple of eight**
(`dvd_size_of_mem_write`).
-/

namespace Xzero.Http.FastCgi

open Http1 List Util HeaderFieldList Record

/-- What is known of a request. -/
structure HttpRequestInfo where
  version : HttpVersion
  unparsedMethod : Bytes
  unparsedUri : Bytes
  headers : HeaderFieldList
  deriving DecidableEq, Repr

/-- `to_string`; there is no text for an unknown version, which is an exception. -/
def versionString : HttpVersion → Option Bytes
  | .unknown => none
  | .version09 => some (ofString "0.9")
  | .version10 => some (ofString "1.0")
  | .version11 => some (ofString "1.1")

/-! ### Records -/

section

variable (type : RecordType) (requestId : UInt16) (buf : Bytes)

def clen (offset : ℕ) : ℕ := min buf.length (0xFFFF + offset) - offset

theorem clen_lt (offset : ℕ) : clen buf offset < 2 ^ 16 := by
  rw [clen]
  omega

theorem clen_pos {offset : ℕ} (h : offset < buf.length) : 0 < clen buf offset := by
  rw [clen]
  omega

def piece (offset : ℕ) (plen : UInt8) : Record where
  type := type.code
  requestId := requestId
  content := (buf.drop offset).take (clen buf offset)
  paddingLength := plen
  length_lt := lt_of_le_of_lt (length_take_le _ _) (clen_lt buf offset)

/-- The size of the padding behind so much content. -/
def plen (clen : ℕ) : ℕ := if clen % 8 ≠ 0 then 8 - clen % 8 else 0

/-- The loop of `write`. -/
def writeLoop (offset : ℕ) : List Record :=
  if _h : offset < buf.length then
    piece type requestId buf offset (UInt8.ofNat (plen (clen buf offset))) ::
      writeLoop (offset + clen buf offset)
  else []
termination_by buf.length - offset
decreasing_by
  have := clen_pos buf _h
  omega

def emptyRecord : Record where
  type := type.code
  requestId := requestId
  content := []
  paddingLength := 0
  length_lt := by decide

def write : List Record :=
  if buf.length ≠ 0 then writeLoop type requestId buf 0 else [emptyRecord type requestId]

/-- The loop of `generateBody` for a file. -/
def fileLoop (offset : ℕ) : List Record :=
  if _h : offset + clen buf offset < buf.length then
    piece type requestId buf offset 0 :: fileLoop (offset + clen buf offset)
  else [piece type requestId buf offset 0]
termination_by buf.length - offset
decreasing_by
  have := clen_pos buf (Nat.lt_of_le_of_lt (Nat.le_add_right _ _) _h)
  omega

end

section

variable {type : RecordType} {requestId : UInt16} {buf : Bytes} {offset : ℕ} {r : Record}

theorem content_piece_append (offset : ℕ) (padding : UInt8) :
    (piece type requestId buf offset padding).content ++ buf.drop (offset + clen buf offset) =
      buf.drop offset := by
  rw [← drop_drop]
  exact take_append_drop _ _

theorem dvd_add_plen (n : ℕ) : 8 ∣ 8 + n + (UInt8.ofNat (plen n)).toNat := by
  have hplen : plen n < 8 ∧ 8 ∣ n + plen n := by
    rw [plen]
    split_ifs <;> omega
  rw [UInt8.toNat_ofNat', Nat.mod_eq_of_lt (by omega)]
  omega

theorem length_content_piece (offset : ℕ) (padding : UInt8) :
    (piece type requestId buf offset padding).content.length = clen buf offset := by
  show ((buf.drop offset).take (clen buf offset)).length = _
  rw [length_take, length_drop, clen]
  omega

/-- **The pieces of a buffer are the buffer.** -/
theorem content_writeLoop (offset : ℕ) :
    (writeLoop type requestId buf offset).flatMap content = buf.drop offset := by
  fun_induction writeLoop type requestId buf offset with
  | case1 offset hlt ih => rw [flatMap_cons, ih, content_piece_append]
  | case2 offset hge => rw [drop_eq_nil_of_le (not_lt.1 hge), flatMap_nil]

/-- A record with content of one stream. -/
def IsPiece (type : RecordType) (requestId : UInt16) (r : Record) : Prop :=
  r.type = type.code ∧ r.requestId = requestId ∧ r.content ≠ []

theorem isPiece_piece (h : offset < buf.length) (padding : UInt8) :
    IsPiece type requestId (piece type requestId buf offset padding) := by
  refine ⟨rfl, rfl, ne_nil_of_length_pos ?_⟩
  rw [length_content_piece]
  exact clen_pos buf h

theorem mem_writeLoop (offset : ℕ) :
    ∀ r ∈ writeLoop type requestId buf offset, IsPiece type requestId r ∧ 8 ∣ r.size := by
  fun_induction writeLoop type requestId buf offset with
  | case1 offset hlt ih =>
    refine forall_mem_cons.2 ⟨⟨isPiece_piece hlt _, ?_⟩, ih⟩
    rw [size, length_content_piece]
    exact dvd_add_plen _
  | case2 offset hge => exact forall_mem_nil _

/-- **The size of a record that is written from a buffer is a multiple of eight.** -/
theorem dvd_size_of_mem_write (h : r ∈ write type requestId buf) : 8 ∣ r.size := by
  rw [write] at h
  split_ifs at h
  · exact (mem_writeLoop 0 r h).2
  · rw [mem_singleton.1 h]
    exact dvd_refl 8

/-- **The pieces of a file are the file.** -/
theorem content_fileLoop (offset : ℕ) :
    (fileLoop type requestId buf offset).flatMap content = buf.drop offset := by
  fun_induction fileLoop type requestId buf offset with
  | case1 offset hlt ih =>
    rw [flatMap_cons, ih, content_piece_append]
  | case2 offset hge =>
    rw [flatMap_cons, flatMap_nil, ← drop_eq_nil_of_le (not_lt.1 hge), content_piece_append]

theorem mem_fileLoop (offset : ℕ) (hlt : offset < buf.length) :
    ∀ r ∈ fileLoop type requestId buf offset, IsPiece type requestId r ∧ r.paddingLength = 0 := by
  fun_induction fileLoop type requestId buf offset with
  | case1 offset hlt' ih =>
    exact forall_mem_cons.2 ⟨⟨isPiece_piece hlt 0, rfl⟩, ih hlt'⟩
  | case2 offset hge =>
    exact forall_mem_singleton.2 ⟨isPiece_piece hlt 0, rfl⟩

end

/-! ### The generator -/

/-- A part of a body. -/
inductive Chunk
  | buffer (bytes : Bytes)
  /-- What is in the file, where the view is. -/
  | file (bytes : Bytes)
  deriving DecidableEq, Repr

def Chunk.bytes : Chunk → Bytes
  | .buffer bytes | .file bytes => bytes

inductive Mode
  | nothing | generateRequest | generateResponse
  deriving DecidableEq, Repr

structure Generator where
  mode : Mode := .nothing
  requestId : UInt16
  bytesTransmitted : ℕ := 0
  buffer : Bytes := []
  written : Bytes := []
  deriving DecidableEq, Repr

namespace Generator

variable (g : Generator)

def push (records : List Record) : Generator :=
  { g with buffer := g.buffer ++ records.flatMap bytes }

def flushBuffer : Generator :=
  { g with
    bytesTransmitted := g.bytesTransmitted + g.buffer.length
    written := g.written ++ g.buffer
    buffer := [] }

def params (info : HttpRequestInfo) (version : Bytes) : Bytes :=
  encode (ofString "GATEWAY_INTERFACE") (ofString "CGI/1.1") ++
    encode (ofString "SERVER_SOFTWARE") (ofString "xzero/http") ++
    encode (ofString "SERVER_PROTOCOL") version ++
    (if contains info.headers (ofString "Host") then
      encode (ofString "SERVER_NAME") (get info.headers (ofString "Host")) else []) ++
    encode (ofString "REQUEST_METHOD") info.unparsedMethod ++
    encode (ofString "REQUEST_URI") info.unparsedUri ++
    info.headers.flatMap fun header ↦ encodeHeader header.1 header.2

def firstParams (version : Bytes) : List (Bytes × Bytes) :=
  [(ofString "GATEWAY_INTERFACE", ofString "CGI/1.1"),
    (ofString "SERVER_SOFTWARE", ofString "xzero/http"), (ofString "SERVER_PROTOCOL", version)]

/-- The records of a request's parameters. -/
def paramsRecords (requestId : UInt16) (info : HttpRequestInfo) (version : Bytes) : List Record :=
  write .params requestId (params info version) ++ write .params requestId []

/-- `generateRequest`; `none` stands for the exception of `to_string`. -/
def generateRequest (info : HttpRequestInfo) : Option Generator :=
  (versionString info.version).map fun version ↦
    { g with mode := .generateRequest }.push (paramsRecords g.requestId info version)

def bodyType : RecordType := if g.mode = .generateRequest then .stdIn else .stdOut

/-- One piece of a file: its header, and what is in the file. -/
def pushFile (r : Record) : Generator :=
  let g := { g with buffer := g.buffer ++ r.header }.flushBuffer
  { g with
    bytesTransmitted := g.bytesTransmitted + r.content.length, written := g.written ++ r.content }

def generateBody : Chunk → Generator
  | .buffer bytes => if bytes.isEmpty then g else g.push (write g.bodyType g.requestId bytes)
  | .file bytes =>
    if bytes.isEmpty then g else (fileLoop g.bodyType g.requestId bytes 0).foldl pushFile g

def generateEnd : Generator :=
  match g.mode with
  | .nothing => g.flushBuffer
  | .generateRequest => (g.push [emptyRecord .stdIn g.requestId]).flushBuffer
  | .generateResponse =>
    let endRequest : Record := {
      type := RecordType.endRequest.code, requestId := g.requestId, content := replicate 8 0
      paddingLength := 0, length_lt := by decide }
    (g.push [emptyRecord .stdOut g.requestId, endRequest]).flushBuffer

/-! ### What is written -/

/-- What was given to the writer and what is to be. -/
def output : Bytes := g.written ++ g.buffer

variable {g} {r : Record} {records : List Record}

theorem output_push : (g.push records).output = g.output ++ records.flatMap bytes :=
  (append_assoc _ _ _).symm

theorem output_pushFile (hr : r.paddingLength = 0) : (g.pushFile r).output = g.output ++ r.bytes := by
  show (g.written ++ (g.buffer ++ r.header)) ++ r.content ++ [] = _
  rw [bytes, hr, output]
  simp

theorem foldl_pushFile (hrecords : ∀ r ∈ records, r.paddingLength = 0) (g : Generator) :
    (records.foldl pushFile g).output = g.output ++ records.flatMap bytes ∧
      (records.foldl pushFile g).mode = g.mode ∧
      (records.foldl pushFile g).requestId = g.requestId := by
  induction records generalizing g with
  | nil => exact ⟨(append_nil _).symm, rfl, rfl⟩
  | cons r records ih =>
    obtain ⟨hr, hrecords⟩ := forall_mem_cons.1 hrecords
    obtain ⟨houtput, hmode, hid⟩ := ih hrecords (g.pushFile r)
    refine ⟨?_, hmode, hid⟩
    rw [foldl_cons, houtput, output_pushFile hr, flatMap_cons, append_assoc]

/-- A part of a request's body is written as records of its pieces. -/
def Writes (g : Generator) (body : Bytes) (g' : Generator) : Prop :=
  ∃ records : List Record, g'.output = g.output ++ records.flatMap bytes ∧
    g'.mode = .generateRequest ∧ g'.requestId = g.requestId ∧
    (∀ r ∈ records, IsPiece .stdIn g.requestId r) ∧ records.flatMap content = body

theorem Writes.nil (hmode : g.mode = .generateRequest) : g.Writes [] g :=
  ⟨[], (append_nil _).symm, hmode, rfl, forall_mem_nil _, rfl⟩

theorem writes_generateBody (hmode : g.mode = .generateRequest) (chunk : Chunk) :
    g.Writes chunk.bytes (g.generateBody chunk) := by
  have htype : g.bodyType = .stdIn := if_pos hmode
  rcases chunk with bytes | bytes <;> rw [generateBody] <;> rcases bytes with - | ⟨b, bytes⟩
  · exact .nil hmode
  · rw [isEmpty_cons, if_neg Bool.false_ne_true, htype, write, length_cons, if_pos (Nat.succ_ne_zero _)]
    exact ⟨_, output_push, hmode, rfl, fun r hr ↦ (mem_writeLoop 0 r hr).1, content_writeLoop 0⟩
  · exact .nil hmode
  · have hmem : ∀ r ∈ fileLoop .stdIn g.requestId (b :: bytes) 0, _ :=
      mem_fileLoop 0 (Nat.succ_pos _)
    obtain ⟨houtput, hmode', hid⟩ := foldl_pushFile (fun r hr ↦ (hmem r hr).2) g
    rw [isEmpty_cons, if_neg Bool.false_ne_true, htype]
    exact ⟨_, houtput, hmode'.trans hmode, hid, fun r hr ↦ (hmem r hr).1, content_fileLoop 0⟩

/-- **A body is written as records of its pieces.** -/
theorem writes_foldl_generateBody (hmode : g.mode = .generateRequest) (chunks : List Chunk) :
    g.Writes (chunks.flatMap Chunk.bytes) (chunks.foldl generateBody g) := by
  induction chunks generalizing g with
  | nil => exact .nil hmode
  | cons chunk chunks ih =>
    obtain ⟨records, houtput, hmode', hid, hpieces, hcontent⟩ := writes_generateBody hmode chunk
    obtain ⟨records', houtput', hmode'', hid', hpieces', hcontent'⟩ := ih hmode'
    refine ⟨records ++ records', ?_, hmode'', hid'.trans hid, ?_, ?_⟩
    · rw [foldl_cons, houtput', houtput, flatMap_append, append_assoc]
    · rw [hid] at hpieces'
      exact forall_mem_append.2 ⟨hpieces, hpieces'⟩
    · rw [flatMap_append, hcontent, hcontent', flatMap_cons]

theorem written_generateEnd (hmode : g.mode = .generateRequest) :
    g.generateEnd.written = g.output ++ (emptyRecord .stdIn g.requestId).bytes := by
  rw [generateEnd, hmode]
  show g.written ++ (g.buffer ++ (_ ++ [])) = _
  rw [append_nil, output, append_assoc]

end Generator

end Xzero.Http.FastCgi
