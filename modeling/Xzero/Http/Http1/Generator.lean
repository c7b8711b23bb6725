import Xzero.Http.Http1.Parser
import Xzero.Http.Status
import Xzero.Library.Numeral

/-!
# The HTTP/1 generator

`xzero::http::http1::Generator` writes the start line and the headers of a message, its content in
pieces and what ends it. The content has the length that was announced, or it is written in chunks.
What goes to the `EndPointWriter` is kept in `output`, in the order in which it was written. The
number of bytes transmitted is left out; nothing depends on it.
-/

namespace Xzero.Http

open Util

structure HeaderField where
  name : Bytes
  value : Bytes
  /-- Whether a protocol is to treat it with special security. -/
  sensitive : Bool := false
  deriving DecidableEq, Repr

namespace Http1

structure HttpInfo where
  version : HttpVersion
  contentLength : BitVec 64
  headers : List HeaderField
  trailers : List HeaderField

namespace HttpInfo

def unknownContentLength : BitVec 64 := -1

def hasContentLength (info : HttpInfo) : Bool := info.contentLength ≠ unknownContentLength

def hasTrailers (info : HttpInfo) : Bool := !info.trailers.isEmpty

end HttpInfo

structure HttpRequestInfo extends HttpInfo where
  unparsedMethod : Bytes
  unparsedUri : Bytes

structure HttpResponseInfo extends HttpInfo where
  status : HttpStatus
  reason : Bytes

/-- What is given to `generateBody`; the size is a `size_t`. -/
structure Chunk where
  bytes : Bytes
  length_lt : bytes.length < 2 ^ 64

namespace Chunk

def empty : Chunk := ⟨[], Nat.two_pow_pos 64⟩

def size (chunk : Chunk) : BitVec 64 := BitVec.ofNat 64 chunk.bytes.length

end Chunk

/-- What a generator raises. -/
inductive GeneratorError
  | runtimeError (what : String)
  | invalidArgumentError (what : String)
  | illegalStateError (what : String)
  /-- It reads behind the end of a buffer. -/
  | overread
  deriving DecidableEq, Repr

structure Generator where
  contentLength : BitVec 64
  actualContentLength : BitVec 64
  chunked : Bool
  buffer : Bytes
  output : Bytes

/-- `%lu` and `%d`. -/
def decimal (n : ℕ) : Bytes := Numeral.digits 10 n

/-- `%zx`. -/
def hexadecimal (n : ℕ) : Bytes := Numeral.digits 16 n

def CRLF : Bytes := [CR, LF]

namespace Generator

/-- `Generator(output)`. -/
def init : Generator where
  contentLength := -1
  actualContentLength := 0
  chunked := false
  buffer := []
  output := []

def remainingContentLength (g : Generator) : BitVec 64 := g.contentLength - g.actualContentLength

/-- `buffer_.push_back`. -/
def push (g : Generator) (bytes : Bytes) : Generator := { g with buffer := g.buffer ++ bytes }

/-- `writer_->write`. -/
def write (g : Generator) (bytes : Bytes) : Generator := { g with output := g.output ++ bytes }

def flushBuffer (g : Generator) : Generator := { g.write g.buffer with buffer := [] }

/-- `generateBody`, with the line that has the size of a chunk and what is raised if there is too
much. -/
def generateBodyWith (sizeLine : ℕ → Except GeneratorError Bytes) (what : String) (g : Generator)
    (chunk : Chunk) : Except GeneratorError Generator :=
  if g.chunked then
    if 0 < chunk.bytes.length then
      (sizeLine chunk.bytes.length).map fun line ↦ ((g.write line).write chunk.bytes).write CRLF
    else .ok g
  else if chunk.size ≤ g.remainingContentLength then
    .ok ({ g with actualContentLength := g.actualContentLength + chunk.size }.write chunk.bytes)
  else .error (.runtimeError what)

def generateBody : Generator → Chunk → Except GeneratorError Generator :=
  generateBodyWith (fun size ↦ .ok (hexadecimal size ++ CRLF))
    "HTTP body exceeds the expected content length."

/-- `generateBody(Buffer&&)`. -/
def generateBodyBuffer : Generator → Chunk → Except GeneratorError Generator :=
  generateBodyWith (fun size ↦ .ok (hexadecimal size ++ CRLF))
    "HTTP body exceeds the expected content length."

/-- `snprintf(buf, 12, "%zx\r\n", size)`, and the bytes that it says are in the buffer. -/
def fileSizeLine (size : ℕ) : Except GeneratorError Bytes :=
  let line := hexadecimal size ++ CRLF
  if line.length < 12 then .ok line
  else if line.length = 12 then .ok (line.take 11 ++ [0])
  else .error .overread

/-- `generateBody(FileView&&)`. -/
def generateBodyFile : Generator → Chunk → Except GeneratorError Generator :=
  generateBodyWith fileSizeLine "HTTP body chunk exceeds content length."

def headerLine (header : HeaderField) : Bytes :=
  header.name ++ ascii ": ".toList ++ header.value ++ CRLF

def generateTrailer (g : Generator) (trailers : List HeaderField) : Generator :=
  if g.chunked then
    ((g.push (ascii "0\r\n".toList)).push (trailers.flatMap headerLine)).push CRLF |>.flushBuffer
  else g.flushBuffer

def generateRequestLine (g : Generator) (info : HttpRequestInfo) : Except GeneratorError Generator :=
  let g := ((g.push info.unparsedMethod).push [SP]).push info.unparsedUri
  match info.version with
  | .version09 => .ok (g.push (ascii " HTTP/0.9\r\n".toList))
  | .version10 => .ok (g.push (ascii " HTTP/1.0\r\n".toList))
  | .version11 => .ok (g.push (ascii " HTTP/1.1\r\n".toList))
  | .unknown => .error (.invalidArgumentError "Invalid HttpVersion passed.")

def responseVersion : HttpVersion → Except GeneratorError Bytes
  | .version09 => .ok (ascii "HTTP/0.9 ".toList)
  | .version10 => .ok (ascii "HTTP/1.0 ".toList)
  | .version11 => .ok (ascii "HTTP/1.1 ".toList)
  | .unknown => .error (.illegalStateError "Invalid HTTP version.")

def responseText (info : HttpResponseInfo) : Bytes :=
  if 0 < info.reason.length then info.reason else ascii info.status.text.toList

def generateResponseLine (g : Generator) (info : HttpResponseInfo) : Except GeneratorError Generator :=
  (responseVersion info.version).map fun version ↦
    ((((g.push version).push (decimal info.status.toInt)).push [SP]).push (responseText info)).push CRLF

def generateHeaders (g : Generator) (info : HttpInfo) (bodyForbidden : Bool) : Generator :=
  let g := { g with
    chunked := !info.hasContentLength || info.hasTrailers, contentLength := info.contentLength }
  -- Pseudo headers are left out.
  let g := g.push ((info.headers.filter fun header ↦ header.name.head? ≠ some ':'.toUInt8).flatMap
    headerLine)
  let g := if info.trailers.isEmpty then g
    else g.push (ascii "Trailer: ".toList ++
      (ascii ", ".toList).intercalate (info.trailers.map HeaderField.name) ++ CRLF)
  let g := if bodyForbidden then g
    else if g.chunked then g.push (ascii "Transfer-Encoding: chunked\r\n".toList)
    else g.push (ascii "Content-Length: ".toList ++ decimal info.contentLength.toNat ++ CRLF)
  g.push CRLF

def generateRequest (g : Generator) (info : HttpRequestInfo) : Except GeneratorError Generator :=
  (g.generateRequestLine info).map fun g ↦ (g.generateHeaders info.toHttpInfo false).flushBuffer

def generateResponseInfo (g : Generator) (info : HttpResponseInfo) : Except GeneratorError Generator :=
  (g.generateResponseLine info).map fun g ↦
    (if 200 ≤ info.status.toInt then
      g.generateHeaders info.toHttpInfo info.status.isContentForbidden
    else if info.status = .switchingProtocols then
      g.generateHeaders info.toHttpInfo info.status.isContentForbidden
    else g.push CRLF).flushBuffer

end Generator

/-- A piece of a message's content, as it is given to one of the variants of `generateBody`. -/
inductive Piece
  | bufferRef (chunk : Chunk)
  | buffer (chunk : Chunk)
  | fileView (chunk : Chunk)

namespace Piece

def chunk : Piece → Chunk
  | bufferRef chunk | buffer chunk | fileView chunk => chunk

def bytes (piece : Piece) : Bytes := piece.chunk.bytes

end Piece

namespace Generator

/-- The variant of `generateBody` for a piece. -/
def generatePiece (g : Generator) : Piece → Except GeneratorError Generator
  | .bufferRef chunk => g.generateBody chunk
  | .buffer chunk => g.generateBodyBuffer chunk
  | .fileView chunk => g.generateBodyFile chunk

/-- `generateRequest(info, chunk)`. -/
def generateRequestPiece (g : Generator) (info : HttpRequestInfo) (piece : Piece) :
    Except GeneratorError Generator :=
  g.generateRequest info >>= fun g ↦ g.generatePiece piece

/-- `generateResponse(info, chunk)`; what is flushed at the end is empty. -/
def generateResponse (g : Generator) (info : HttpResponseInfo) (piece : Piece) :
    Except GeneratorError Generator :=
  g.generateResponseInfo info >>= fun g ↦ g.generatePiece piece >>= fun g ↦
    match piece with
    | .fileView _ => .ok g
    | _ => .ok g.flushBuffer

end Generator

end Http1

end Xzero.Http
