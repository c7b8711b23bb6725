import Xzero.Http.Http1.Reading

/-!
# What a generator writes, a parser reads

A message is written with its start line and its headers, then its content piece by piece, then what
ends it (`generateMessage`). The parser has the same start line and headers from it, and the same
content (`RoundTrips`). **It does if and only if the content is not too long** (`roundTrips_iff`):
the parser takes the length of the content for an `int`, and the size of a chunk from a file is
written to a buffer of twelve bytes.
-/

namespace Xzero.Http.Http1

open List Util Http1.Parser

/-- What a message begins with, as it is given to a generator. -/
inductive Opening
  | request (info : HttpRequestInfo) (first : Option Piece)
  | response (info : HttpResponseInfo) (first : Piece)

namespace Opening

def mode : Opening → ParseMode
  | request _ _ => .request
  | response _ _ => .response

/-- What requests and responses have. -/
def info : Opening → HttpInfo
  | request info _ => info.toHttpInfo
  | response info _ => info.toHttpInfo

def first : Opening → List Piece
  | request _ first => first.toList
  | response _ first => [first]

/-- Its start line, as a listener has it. -/
def start : Opening → Event
  | request info _ => .requestBegin info.unparsedMethod info.unparsedUri info.version
  | response info _ =>
    .responseBegin info.version (BitVec.ofNat 32 info.status.toInt) (Generator.responseText info)

/-- Its start line, as it is written. -/
def startLine : Opening → Bytes
  | request info _ => requestLine info.unparsedMethod info.unparsedUri info.version
  | response info _ => statusLine info.version info.status.toInt (Generator.responseText info)

def generate (g : Generator) : Opening → Except GeneratorError Generator
  | request info none => g.generateRequest info
  | request info (some piece) => g.generateRequestPiece info piece
  | response info piece => g.generateResponse info piece

/-- The start line can be written. A response is a final one that may have content. -/
def HasStart : Opening → Prop
  | request info _ =>
    IsWord isToken info.unparsedMethod ∧ IsWord isTarget info.unparsedUri
  | response info _ =>
    info.status.permitsContent = true ∧ ∀ c ∈ info.reason, isText c = true

end Opening

/-- **A message is written.** -/
def generateMessage (opening : Opening) (rest : List Piece) : Except GeneratorError Generator := do
  let g ← opening.generate Generator.init
  let g ← rest.foldlM Generator.generatePiece g
  return g.generateTrailer []

def body (pieces : List Piece) : Bytes := (pieces.map Piece.bytes).flatten

/-- What a message must be like to be written. -/
structure WellFormed (opening : Opening) (rest : List Piece) : Prop where
  hasStart : opening.HasStart
  version_ne : opening.info.version ≠ .unknown
  trailers_eq : opening.info.trailers = []
  isPlain : ∀ header ∈ opening.info.headers, IsPlain header
  /-- The content has the length that is announced, if any is. -/
  length_eq : opening.info.hasContentLength = true →
    (body (opening.first ++ rest)).length = opening.info.contentLength.toNat

/-- A part of a file that is too long for the buffer that its size is written to. -/
def Piece.isLong : Piece → Bool
  | .fileView chunk => 2 ^ 36 ≤ chunk.bytes.length
  | _ => false

namespace Generator

variable {g : Generator}

/-- The header that says how the content is framed. -/
def framing (info : HttpInfo) : HeaderField :=
  if info.hasContentLength then ⟨ascii "Content-Length".toList, decimal info.contentLength.toNat, false⟩
  else ⟨ascii "Transfer-Encoding".toList, ascii "chunked".toList, false⟩

theorem flushBuffer_of_nil (h : g.buffer = []) : g.flushBuffer = g := by
  obtain ⟨contentLength, actual, chunked, buffer, output⟩ := g
  subst h
  simp only [flushBuffer, write, append_nil]

theorem filter_of_isPlain {headers : List HeaderField} (h : ∀ header ∈ headers, IsPlain header) :
    (headers.filter fun header ↦ header.name.head? ≠ some ':'.toUInt8) = headers := by
  refine filter_eq_self.2 fun header hmem ↦ decide_eq_true fun hcolon ↦ ?_
  have hall := (h header hmem).name_isWord.all _ (mem_of_mem_head? hcolon)
  exact absurd hall (by decide)

theorem generateHeaders_eq {info : HttpInfo} (htrailers : info.trailers = [])
    (hplain : ∀ header ∈ info.headers, IsPlain header) :
    (g.generateHeaders info false).flushBuffer = { g with
      contentLength := info.contentLength, chunked := !info.hasContentLength, buffer := [],
      output := g.output ++ (g.buffer ++ (info.headers.flatMap headerLine ++
        (headerLine (framing info) ++ CRLF))) } := by
  have htrailers' : info.hasTrailers = false := by rw [HttpInfo.hasTrailers, htrailers]; rfl
  rw [generateHeaders, filter_of_isPlain hplain, htrailers, htrailers', framing]
  have hchunked : ascii "Transfer-Encoding: chunked\r\n".toList =
      headerLine ⟨ascii "Transfer-Encoding".toList, ascii "chunked".toList, false⟩ := rfl
  have hlength : ascii "Content-Length: ".toList ++ decimal info.contentLength.toNat ++ CRLF =
      headerLine ⟨ascii "Content-Length".toList, decimal info.contentLength.toNat, false⟩ := rfl
  rw [hchunked, hlength]
  cases info.hasContentLength <;>
    simp only [push, write, flushBuffer, append_assoc, isEmpty_nil, Bool.not_false, Bool.not_true,
      Bool.or_false, Bool.false_eq_true, if_true, if_false]

/-- What was written before the content, but for the empty line. -/
def headLines (opening : Opening) : Bytes :=
  opening.startLine ++ (opening.info.headers.flatMap headerLine ++ headerLine (framing opening.info))

/-- The generator before the content. -/
def afterHead (opening : Opening) : Generator where
  contentLength := opening.info.contentLength
  actualContentLength := 0
  chunked := !opening.info.hasContentLength
  buffer := []
  output := headLines opening ++ CRLF

theorem generateRequest_eq {info : HttpRequestInfo} {first : Option Piece} (hversion : info.version ≠ .unknown)
    (htrailers : info.trailers = []) (hplain : ∀ header ∈ info.headers, IsPlain header) :
    init.generateRequest info = .ok (afterHead (.request info first)) := by
  have hline : init.generateRequestLine info =
      .ok (init.push (requestLine info.unparsedMethod info.unparsedUri info.version)) := by
    rw [generateRequestLine, requestLine]
    cases hv : info.version
    · exact absurd hv hversion
    all_goals
      simp only [push, init, nil_append, append_assoc]
      rfl
  rw [generateRequest, hline, Except.map, generateHeaders_eq htrailers hplain]
  simp only [push, init, nil_append, afterHead, headLines, Opening.info, Opening.startLine,
    append_assoc]

theorem generateResponseInfo_eq {info : HttpResponseInfo} {first : Piece}
    (hversion : info.version ≠ .unknown) (hstatus : info.status.permitsContent = true)
    (htrailers : info.trailers = []) (hplain : ∀ header ∈ info.headers, IsPlain header) :
    init.generateResponseInfo info = .ok (afterHead (.response info first)) := by
  have hline : init.generateResponseLine info = .ok (init.push
      (statusLine info.version info.status.toInt (responseText info))) := by
    rw [generateResponseLine, statusLine]
    cases hv : info.version
    · exact absurd hv hversion
    all_goals
      simp only [responseVersion, Except.map, push, init, nil_append, append_assoc]
      rfl
  obtain ⟨hfinal, hforbidden⟩ := Bool.and_eq_true_iff.1 hstatus
  rw [Bool.not_eq_true'] at hforbidden
  rw [generateResponseInfo, hline, Except.map, if_pos (of_decide_eq_true hfinal), hforbidden,
    generateHeaders_eq htrailers hplain]
  simp only [push, init, nil_append, afterHead, headLines, Opening.info, Opening.startLine,
    append_assoc]

/-- The line with the size of a piece. -/
def sizeLine : Piece → ℕ → Except GeneratorError Bytes
  | .fileView _ => fileSizeLine
  | _ => fun size ↦ .ok (hexadecimal size ++ CRLF)

/-- The variants of `generateBody` do the same but for the size line and the error. -/
theorem generatePiece_eq (g : Generator) (piece : Piece) :
    ∃ what, g.generatePiece piece = g.generateBodyWith (sizeLine piece) what piece.chunk := by
  cases piece with
  | bufferRef chunk | buffer chunk => exact ⟨"HTTP body exceeds the expected content length.", rfl⟩
  | fileView chunk => exact ⟨"HTTP body chunk exceeds content length.", rfl⟩

variable {piece : Piece} {g' : Generator}

theorem generatePiece_cases (h : g.generatePiece piece = .ok g') :
    g'.buffer = g.buffer ∧ g'.chunked = g.chunked ∧ g.output <+: g'.output := by
  obtain ⟨what, heq⟩ := generatePiece_eq g piece
  rw [heq, generateBodyWith] at h
  split at h
  · split at h
    · rcases hline : sizeLine piece piece.chunk.bytes.length with e | line
      · rw [hline] at h
        cases h
      · rw [hline] at h
        cases h
        refine ⟨rfl, rfl, line ++ piece.chunk.bytes ++ CRLF, ?_⟩
        simp only [write, append_assoc]
    · cases h
      exact ⟨rfl, rfl, prefix_rfl⟩
  · split at h
    · cases h
      exact ⟨rfl, rfl, prefix_append _ _⟩
    · cases h

/-- **The content of a message is written piece by piece after its head.** -/
theorem generateMessage_eq {opening : Opening} {rest : List Piece} (h : WellFormed opening rest) :
    generateMessage opening rest = (do
      let g ← (opening.first ++ rest).foldlM generatePiece (afterHead opening)
      return g.generateTrailer []) := by
  have hopening : opening.generate init = opening.first.foldlM generatePiece (afterHead opening) := by
    rcases opening with ⟨info, - | piece⟩ | ⟨info, piece⟩
    · exact generateRequest_eq h.version_ne h.trailers_eq h.isPlain
    · rw [Opening.generate, generateRequestPiece, generateRequest_eq h.version_ne h.trailers_eq h.isPlain]
      exact (bind_pure _).symm
    · rw [Opening.generate, generateResponse,
        generateResponseInfo_eq h.version_ne h.hasStart.1 h.trailers_eq h.isPlain]
      change (generatePiece _ piece >>= _) = (generatePiece _ piece >>= pure)
      rcases hpiece : generatePiece (afterHead (.response info piece)) piece with e | g
      · rfl
      · have hflush := flushBuffer_of_nil (generatePiece_cases hpiece).1
        cases piece with
        | bufferRef chunk | buffer chunk => exact congrArg Except.ok hflush
        | fileView chunk => rfl
  rw [generateMessage, hopening, foldlM_append, bind_assoc]

/-! ### Chunks -/

variable {n : ℕ}

theorem length_hexadecimal_le : (hexadecimal n).length ≤ 9 ↔ n < 2 ^ 36 :=
  Numeral.length_digits_le_iff (by decide) (by decide)

theorem fileSizeLine_of_lt (h : n < 2 ^ 36) : fileSizeLine n = .ok (hexadecimal n ++ CRLF) := by
  have hline : (hexadecimal n ++ CRLF).length < 12 := by
    rw [length_append]
    exact Nat.lt_of_le_of_lt (Nat.add_le_add_right (length_hexadecimal_le.2 h) _) (by decide)
  exact if_pos hline

variable {line : Bytes}

/-- A size that is too long is not terminated by a line end, if it is written at all. -/
theorem fileSizeLine_of_le (h : 2 ^ 36 ≤ n) (hline : fileSizeLine n = .ok line) :
    line = hexadecimal n ++ [CR, 0] := by
  have hlong : ¬(hexadecimal n).length ≤ 9 := fun hle ↦ not_lt.2 h (length_hexadecimal_le.1 hle)
  have hlength : (hexadecimal n ++ CRLF).length = (hexadecimal n).length + 2 := length_append
  simp only [fileSizeLine, hlength] at hline
  rw [if_neg (by omega)] at hline
  split at hline
  · next heq =>
    have hten : (hexadecimal n).length = 10 := by omega
    have htake : (hexadecimal n ++ CRLF).take 11 = hexadecimal n ++ [CR] := by
      rw [take_append, hten, take_of_length_le (by omega)]
      rfl
    cases hline
    rw [htake, append_assoc]
    rfl
  · cases hline

theorem sizeLine_of_short (h : piece.isLong = false) :
    sizeLine piece piece.bytes.length = .ok (hexadecimal piece.bytes.length ++ CRLF) := by
  cases piece with
  | bufferRef chunk => rfl
  | buffer chunk => rfl
  | fileView chunk => exact fileSizeLine_of_lt (not_le.1 (of_decide_eq_false h))

theorem sizeLine_of_long (h : piece.isLong = true)
    (hline : sizeLine piece piece.bytes.length = .ok line) :
    line = hexadecimal piece.bytes.length ++ [CR, 0] := by
  cases piece with
  | bufferRef chunk => cases h
  | buffer chunk => cases h
  | fileView chunk => exact fileSizeLine_of_le (of_decide_eq_true h) hline

theorem Piece.length_pos_of_long (h : piece.isLong = true) : 0 < piece.bytes.length := by
  cases piece with
  | bufferRef chunk => cases h
  | buffer chunk => cases h
  | fileView chunk => exact lt_of_lt_of_le (by decide) (of_decide_eq_true h)

/-- The chunks that pieces are written as. -/
def chunks (pieces : List Piece) : List Bytes := (pieces.map Piece.bytes).filter (· ≠ [])

theorem flatten_chunks (pieces : List Piece) : (chunks pieces).flatten = body pieces :=
  flatten_filter_ne_nil

variable {pieces : List Piece}

theorem of_mem_chunks {w : Bytes} (h : w ∈ chunks pieces) : w ≠ [] ∧ w.length < 2 ^ 64 := by
  obtain ⟨hmem, hne⟩ := mem_filter.1 h
  obtain ⟨piece, -, rfl⟩ := mem_map.1 hmem
  exact ⟨of_decide_eq_true hne, piece.chunk.length_lt⟩

theorem generatePiece_of_short (hchunked : g.chunked = true) (h : piece.isLong = false) :
    g.generatePiece piece = .ok (g.write ((chunks [piece]).flatMap chunkFrame)) := by
  obtain ⟨what, heq⟩ := generatePiece_eq g piece
  have hline := sizeLine_of_short h
  rw [heq, generateBodyWith, if_pos hchunked, chunks, map_singleton]
  change (if 0 < piece.bytes.length then (sizeLine piece piece.bytes.length).map _ else _) = _
  by_cases hnil : piece.bytes = []
  · rw [if_neg (by rw [hnil]; exact lt_irrefl 0), filter_cons_of_neg (by simpa using hnil)]
    simp only [write, filter_nil, flatMap_nil, append_nil]
  · rw [if_pos (length_pos_iff.2 hnil), hline, filter_cons_of_pos (by simpa using hnil)]
    simp only [Except.map, write, filter_nil, flatMap_cons, flatMap_nil, append_nil,
      chunkFrame, append_assoc]
    rfl

theorem chunks_cons (piece : Piece) (pieces : List Piece) :
    chunks (piece :: pieces) = chunks [piece] ++ chunks pieces := by
  rw [chunks, chunks, chunks, ← filter_append, map_singleton, map_cons, singleton_append]

/-- **Pieces are written chunk by chunk.** -/
theorem foldlM_of_short (hchunked : g.chunked = true) (h : ∀ piece ∈ pieces, piece.isLong = false) :
    pieces.foldlM generatePiece g = .ok (g.write ((chunks pieces).flatMap chunkFrame)) := by
  induction pieces generalizing g with
  | nil =>
    rw [foldlM_nil, chunks, map_nil, filter_nil, flatMap_nil, write, append_nil]
    rfl
  | cons piece pieces ih =>
    obtain ⟨hpiece, h⟩ := forall_mem_cons.1 h
    rw [foldlM_cons, generatePiece_of_short hchunked hpiece]
    refine (ih (g := g.write _) hchunked h).trans ?_
    rw [chunks_cons piece pieces, flatMap_append]
    simp only [write, append_assoc]

theorem foldlM_cases (h : pieces.foldlM generatePiece g = .ok g') :
    g'.buffer = g.buffer ∧ g'.chunked = g.chunked ∧ g.output <+: g'.output := by
  induction pieces generalizing g with
  | nil =>
    cases h
    exact ⟨rfl, rfl, prefix_rfl⟩
  | cons piece pieces ih =>
    rw [foldlM_cons] at h
    rcases hpiece : g.generatePiece piece with e | g₁
    · rw [hpiece] at h
      cases h
    · rw [hpiece] at h
      obtain ⟨hbuffer, hchunked, hout⟩ := generatePiece_cases hpiece
      obtain ⟨hbuffer', hchunked', hout'⟩ := ih h
      exact ⟨hbuffer'.trans hbuffer, hchunked'.trans hchunked, hout.trans hout'⟩

/-- **A piece that is too long is an error, or its size is not written as it should be.** -/
theorem foldlM_of_long (hchunked : g.chunked = true)
    (hlong : ∃ piece ∈ pieces, piece.isLong = true) (h : pieces.foldlM generatePiece g = .ok g') :
    ∃ (ws : List Bytes) (n : ℕ) (t : Bytes), (∀ w ∈ ws, w ≠ [] ∧ w.length < 2 ^ 64) ∧
      g'.output = g.output ++ (ws.flatMap chunkFrame ++ (hexadecimal n ++ CR :: 0 :: t)) := by
  induction pieces generalizing g with
  | nil =>
    obtain ⟨_, hmem, _⟩ := hlong
    cases hmem
  | cons piece pieces ih =>
    rw [foldlM_cons] at h
    cases hpiece : piece.isLong with
    | false =>
      rw [generatePiece_of_short hchunked hpiece] at h
      obtain ⟨piece', hmem, hlong'⟩ := hlong
      have hmem' : piece' ∈ pieces := by
        refine (mem_cons.1 hmem).resolve_left fun heq ↦ ?_
        rw [heq, hpiece] at hlong'
        cases hlong'
      obtain ⟨ws, n, t, hws, hout⟩ := ih (g := g.write _) hchunked ⟨piece', hmem', hlong'⟩ h
      refine ⟨chunks [piece] ++ ws, n, t, fun w hw ↦ ?_, ?_⟩
      · rcases mem_append.1 hw with hw | hw
        · exact of_mem_chunks hw
        · exact hws w hw
      · rw [hout, write, flatMap_append, append_assoc, append_assoc]
    | true =>
      obtain ⟨what, heq⟩ := generatePiece_eq g piece
      have hpos : 0 < piece.chunk.bytes.length := Piece.length_pos_of_long hpiece
      rw [heq, generateBodyWith, if_pos hchunked, if_pos hpos] at h
      rcases hline : sizeLine piece piece.chunk.bytes.length with e | line
      · rw [hline] at h
        cases h
      · rw [hline] at h
        obtain ⟨-, -, t, ht⟩ := foldlM_cases h
        refine ⟨[], piece.bytes.length, piece.bytes ++ (CRLF ++ t), fun w hw ↦ (not_mem_nil hw).elim, ?_⟩
        rw [← ht, sizeLine_of_long hpiece hline]
        simp only [write, append_assoc, flatMap_nil, nil_append, cons_append]
        rfl

/-! ### Content of a known length -/

theorem toNat_size (chunk : Chunk) : chunk.size.toNat = chunk.bytes.length := by
  rw [Chunk.size, BitVec.toNat_ofNat, Nat.mod_eq_of_lt chunk.length_lt]

/-- **Pieces are written one after the other**, as long as no more was announced. -/
theorem foldlM_of_le (hchunked : g.chunked = false)
    (hle : (body pieces).length ≤ g.remainingContentLength.toNat) :
    ∃ g', pieces.foldlM generatePiece g = .ok g' ∧ g'.output = g.output ++ body pieces := by
  induction pieces generalizing g with
  | nil => exact ⟨g, rfl, (append_nil _).symm⟩
  | cons piece pieces ih =>
    obtain ⟨what, heq⟩ := generatePiece_eq g piece
    have hbody : body (piece :: pieces) = piece.bytes ++ body pieces := rfl
    rw [hbody, length_append] at hle
    have hsize : piece.chunk.size.toNat = piece.bytes.length := toNat_size piece.chunk
    have hfits : piece.chunk.size ≤ g.remainingContentLength := by
      rw [BitVec.le_def, hsize]
      omega
    rw [foldlM_cons, heq, generateBodyWith, if_neg (Bool.eq_false_iff.1 hchunked), if_pos hfits]
    have hrest : (g.contentLength - (g.actualContentLength + piece.chunk.size)).toNat =
        g.remainingContentLength.toNat - piece.bytes.length := by
      rw [← BitVec.sub_sub, ← hsize]
      exact BitVec.toNat_sub_of_le hfits
    obtain ⟨g', hg', hout⟩ := ih (g := write { g with
      actualContentLength := g.actualContentLength + piece.chunk.size } piece.chunk.bytes) hchunked (by
        change _ ≤ (g.contentLength - (g.actualContentLength + piece.chunk.size)).toNat
        omega)
    refine ⟨g', hg', ?_⟩
    rw [hout, hbody, write, append_assoc]
    rfl

end Generator

namespace Parser

open Generator Bool

/-! ### The head of a message is read -/

section

variable {opening : Opening} {rest : List Piece} {data t : Bytes} {p : Parser}

/-- The length that the parser takes from a header, an `int`. -/
def announced (info : HttpInfo) : BitVec 64 :=
  if info.hasContentLength then (BitVec.ofNat 32 info.contentLength.toNat).signExtend 64 else -1

/-- What a listener has of the header that was added. -/
def lengthEvents (info : HttpInfo) : List Event :=
  if info.hasContentLength then
    [.header (ascii "Content-Length".toList) (decimal info.contentLength.toNat)]
  else []

/-- What a listener has of the head of a message, but for its end. -/
def headEvents (opening : Opening) : List Event :=
  opening.start :: (headerEvents opening.info.headers ++ lengthEvents opening.info)

def isPrintable (text : List Char) : Bool :=
  !text.isEmpty && text.all fun c ↦ Nat.ble 32 c.toNat && Nat.ble c.toNat 126

theorem protocolError_notMem_headEvents {code : BitVec 32} :
    .protocolError code ∉ headEvents opening := by
  have hlength : .protocolError code ∉ lengthEvents opening.info := by
    rw [lengthEvents]
    split <;> simp
  rcases opening with ⟨info, first⟩ | ⟨info, first⟩ <;>
    simp [headEvents, Opening.start, headerEvents, hlength]

theorem isWord_of_isPrintable {text : List Char} (h : isPrintable text = true) :
    IsWord isText (ascii text) := by
  rw [isPrintable, and_eq_true, not_eq_true', all_eq_true] at h
  refine ⟨fun hnil ↦ ?_, fun c hc ↦ ?_⟩
  · rw [map_eq_nil_iff.1 hnil] at h
    cases h.1
  · obtain ⟨c, hmem, rfl⟩ := mem_map.1 hc
    obtain ⟨hge, hle⟩ := and_eq_true_iff.1 (h.2 c hmem)
    have hge := Nat.le_of_ble_eq_true hge
    have hle := Nat.le_of_ble_eq_true hle
    have hnat : c.toUInt8.toNat = c.toNat :=
      (UInt32.toNat_toUInt8 c.val).trans (Nat.mod_eq_of_lt (Nat.lt_of_le_of_lt hle (by decide)))
    have hcontrol : isControl c.toUInt8 = false := by
      rw [isControl, or_eq_false_iff, decide_eq_false_iff_not, decide_eq_false_iff_not,
        UInt8.le_iff_toNat_le, ← UInt8.toNat_inj, hnat]
      exact ⟨Nat.not_le.2 hge, fun heq ↦ absurd (heq ▸ hle) (by decide)⟩
    rw [isText, hcontrol]
    rfl

theorem isWord_text {status : HttpStatus} (h : status.permitsContent = true) :
    IsWord isText (ascii status.text.toList) := by
  refine isWord_of_isPrintable ?_
  revert h
  cases status
  all_goals
    intro h
    first
    | exact absurd h (by decide)
    | simp only [HttpStatus.text, String.reduceToList]
      rfl

theorem reads_startLine (h : WellFormed opening rest) (hdata : data = opening.startLine ++ t) :
    ∃ p, Reads data (init opening.mode, 0) [opening.start] (p, opening.startLine.length) ∧
      AtHeader opening.mode false (-1) p := by
  rcases opening with ⟨info, first⟩ | ⟨info, first⟩
  · exact reads_requestLine h.hasStart.1 h.hasStart.2 h.version_ne hdata
  · have htext : IsWord isText (responseText info) := by
      rw [responseText]
      split
      · next hpos => exact ⟨length_pos_iff.1 hpos, h.hasStart.2⟩
      · exact isWord_text h.hasStart.1
    exact reads_statusLine htext h.version_ne hdata

variable {info : HttpInfo} {pos : ℕ}

theorem reads_framing {mode : ParseMode} (hp : AtHeader mode false (-1) p)
    (h : data.drop pos = headerLine (framing info) ++ CR :: t) :
    ∃ p', Reads data (p, pos) (lengthEvents info) (p', pos + (headerLine (framing info)).length) ∧
      AtHeader mode (!info.hasContentLength) (announced info) p' := by
  cases hlength : info.hasContentLength with
  | false =>
    simp only [framing, lengthEvents, announced, hlength, false_eq_true, if_false] at h ⊢
    refine reads_headerLine hp ⟨by decide, by decide +kernel⟩ ⟨by decide +kernel, by decide +kernel⟩
      (by decide) ?_ h
    intro q _ hq
    rw [← hq]
    rfl
  | true =>
    simp only [framing, lengthEvents, announced, hlength, if_true] at h ⊢
    have hname : IsWord isToken (ascii "Content-Length".toList) := ⟨by decide, by decide +kernel⟩
    refine reads_headerLine hp hname (isValue_decimal _) (by decide) ?_ h
    intro q hq _
    have hlength : Buffer.iequals (ascii "Content-Length".toList) (ascii "Content-Length".toList) = true := by
      decide
    rw [← toInt_decimal, Bool.not_true, acceptHeader, if_pos, ← hq]
    exact hlength

theorem exists_cons_framing (info : HttpInfo) (t : Bytes) :
    ∃ b t', headerLine (framing info) ++ t = b :: t' ∧ ¬(b = SP ∨ b = HT) := by
  rw [framing]
  split
  · exact ⟨_, _, rfl, by decide⟩
  · exact ⟨_, _, rfl, by decide⟩

/-- **The head of a message is read.** -/
theorem reads_head (h : WellFormed opening rest) (hdata : data = headLines opening ++ CR :: LF :: t) :
    ∃ p, Reads data (init opening.mode, 0) (headEvents opening) (p, (headLines opening).length) ∧
      AtHeader opening.mode (!opening.info.hasContentLength) (announced opening.info) p := by
  have h₀ : data = opening.startLine ++ (opening.info.headers.flatMap headerLine ++
      (headerLine (framing opening.info) ++ CR :: LF :: t)) := by
    rw [hdata, headLines]
    simp only [append_assoc]
  have h₁ : data.drop opening.startLine.length = opening.info.headers.flatMap headerLine ++
      (headerLine (framing opening.info) ++ CR :: LF :: t) := by
    rw [h₀, drop_left]
  obtain ⟨b, t', heq, hb⟩ := exists_cons_framing opening.info (CR :: LF :: t)
  obtain ⟨p₁, hreads₁, hp₁⟩ := reads_startLine h h₀
  obtain ⟨p₂, hreads₂, hp₂⟩ := reads_headers hp₁ h.isPlain hb (heq ▸ h₁)
  obtain ⟨p₃, hreads₃, hp₃⟩ := reads_framing hp₂ (drop_of_append h₁)
  have hlength : (headLines opening).length = opening.startLine.length +
      (opening.info.headers.flatMap headerLine).length + (headerLine (framing opening.info)).length := by
    rw [headLines, length_append, length_append, add_assoc]
  rw [hlength]
  exact ⟨p₃, hreads₁.trans (hreads₂.trans hreads₃), hp₃⟩

theorem reads_chunks {ws : List Bytes} (hp : AtChunk p)
    (hws : ∀ w ∈ ws, w ≠ [] ∧ w.length < 2 ^ 64) (h : data.drop pos = ws.flatMap chunkFrame ++ t) :
    ∃ p', Reads data (p, pos) (ws.map .content) (p', pos + (ws.flatMap chunkFrame).length) ∧
      AtChunk p' := by
  induction ws generalizing p pos with
  | nil => exact ⟨p, Reads.refl _ _, hp⟩
  | cons w ws ih =>
    obtain ⟨⟨hne, hlt⟩, hws⟩ := forall_mem_cons.1 hws
    rw [flatMap_cons, append_assoc] at h
    obtain ⟨p₁, hreads, hp₁⟩ := reads_chunk hp hne hlt h
    obtain ⟨p₂, hreads', hp₂⟩ := ih hp₁ hws (drop_of_append h)
    refine ⟨p₂, ?_, hp₂⟩
    rw [flatMap_cons, length_append, ← add_assoc]
    exact hreads.trans hreads'

theorem drop_headLines (hdata : data = headLines opening ++ CR :: LF :: t) :
    data.drop (headLines opening).length = CR :: LF :: t := by
  rw [hdata, drop_left]

theorem drop_body (hdata : data = headLines opening ++ CR :: LF :: t) :
    data.drop ((headLines opening).length + 2) = t :=
  drop_of_cons (drop_of_cons (drop_headLines hdata))

section

variable (h : WellFormed opening rest) (hlength : opening.info.hasContentLength = false)
include h hlength

/-- **A message without a length comes to its chunks.** -/
theorem reads_to_chunks (ht : t ≠ []) (hdata : data = headLines opening ++ CR :: LF :: t) :
    ∃ p, Reads data (init opening.mode, 0) (headEvents opening ++ [.headerEnd])
      (p, (headLines opening).length + 2) ∧ AtChunk p := by
  obtain ⟨p₁, hreads₁, hp₁⟩ := reads_head h hdata
  have hchunked : p₁.chunked = true := by rw [hp₁.chunked_eq, hlength]; rfl
  have hexpected : p₁.isContentExpected = true := by
    rw [isContentExpected, hchunked, Bool.or_true, Bool.true_or]
  have hreads₂ := reads_headerEnd hp₁ hexpected (drop_headLines hdata)
  obtain ⟨c, t', rfl⟩ := exists_cons_of_ne_nil ht
  have hdrop := drop_body hdata
  obtain ⟨p₃, hreads₃, hp₃⟩ :=
    reads_contentBegin (p := { p₁ with state := .contentBegin }) rfl hchunked hdrop
  have hreads := (hreads₁.trans hreads₂).trans hreads₃
  rw [append_nil] at hreads
  exact ⟨p₃, hreads, hp₃⟩

variable {ws : List Bytes}

/-- **A message in chunks is read.** -/
theorem loop_chunks (hws : ∀ w ∈ ws, w ≠ [] ∧ w.length < 2 ^ 64)
    (hdata : data = headLines opening ++ CR :: LF :: (ws.flatMap chunkFrame ++ lastChunk)) :
    ∃ q, (init opening.mode).loop data 0 =
      (headEvents opening ++ .headerEnd :: (ws.map .content ++ [.messageEnd]), .done q data.length) := by
  have hne : ws.flatMap chunkFrame ++ lastChunk ≠ [] :=
    append_ne_nil_of_right_ne_nil _ (by decide)
  have hdrop := drop_body hdata
  obtain ⟨p₁, hreads₁, hp₁⟩ := reads_to_chunks h hlength hne hdata
  obtain ⟨p₂, hreads₂, hp₂⟩ := reads_chunks hp₁ hws hdrop
  obtain ⟨q, hq⟩ := loop_lastChunk hp₂ (drop_of_append hdrop)
  have hloop := (hreads₁.trans hreads₂).loop_eq hq
  refine ⟨q, hloop.trans ?_⟩
  rw [append_assoc, append_assoc]
  rfl

/-- **A size that is not terminated is an error to the parser.** -/
theorem protocolError_of_long {n : ℕ} (hws : ∀ w ∈ ws, w ≠ [] ∧ w.length < 2 ^ 64)
    (hdata : data = headLines opening ++ CR :: LF :: (ws.flatMap chunkFrame ++
      (hexadecimal n ++ CR :: 0 :: t))) :
    .protocolError 400 ∈ ((init opening.mode).loop data 0).1 := by
  have hne : ws.flatMap chunkFrame ++ (hexadecimal n ++ CR :: 0 :: t) ≠ [] :=
    append_ne_nil_of_right_ne_nil _ (append_ne_nil_of_right_ne_nil _ (cons_ne_nil _ _))
  have hdrop := drop_body hdata
  obtain ⟨p₁, hreads₁, hp₁⟩ := reads_to_chunks h hlength hne hdata
  obtain ⟨p₂, hreads₂, hp₂⟩ := reads_chunks hp₁ hws hdrop
  have herror := protocolError_of_sizeLine hp₂ (by decide) (drop_of_append hdrop)
  rw [hreads₁.trans hreads₂]
  exact mem_append_right _ herror

/-! ### A length that is announced -/

end

theorem toInt_announced (hlength : info.hasContentLength = true) :
    (announced info).toInt = (info.contentLength.toNat : ℤ).bmod (2 ^ 32) := by
  rw [announced, hlength, if_pos rfl, BitVec.toInt_signExtend_of_le (by decide), BitVec.toInt_ofNat']

theorem toNat_of_toInt_nonneg {x : BitVec 64} (h : 0 ≤ x.toInt) : (x.toNat : ℤ) = x.toInt := by
  rw [BitVec.toInt_eq_toNat_cond] at h ⊢
  split
  · rfl
  · next hge =>
    rw [if_neg hge] at h
    have := x.isLt
    omega

section

variable (h : WellFormed opening rest) (hlength : opening.info.hasContentLength = true)
  (hdata : data = headLines opening ++ CR :: LF :: t)
include h hlength hdata

theorem reads_sizedHead :
    ∃ p, Reads data (init opening.mode, 0) (headEvents opening) (p, (headLines opening).length) ∧
      AtHeader opening.mode false (announced opening.info) p ∧
      p.isContentExpected = (decide (0 < (announced opening.info).toInt) ||
        (decide ((announced opening.info).toInt < 0) && decide (opening.mode ≠ .request))) := by
  obtain ⟨p, hreads, hp⟩ := reads_head h hdata
  rw [hlength, Bool.not_true] at hp
  refine ⟨p, hreads, hp, ?_⟩
  rw [isContentExpected, hp.chunked_eq, hp.length_eq, hp.mode_eq, Bool.or_false, BitVec.slt_eq_decide,
    BitVec.slt_eq_decide]
  rfl

/-- A message ends after its head if the parser takes its length for zero, or if it is a request and
the parser takes its length for a negative number. -/
theorem loop_of_nonpos (hle : (announced opening.info).toInt ≤ 0)
    (hor : (announced opening.info).toInt = 0 ∨ opening.mode = .request) :
    ∃ q, (init opening.mode).loop data 0 = (headEvents opening ++ [.headerEnd, .messageEnd],
      .done q ((headLines opening).length + 2)) := by
  obtain ⟨p, hreads, hp, hexpected⟩ := reads_sizedHead h hlength hdata
  have hnot : p.isContentExpected = false := by
    rw [hexpected, decide_eq_false hle.not_gt, Bool.false_or]
    rcases hor with hzero | hmode
    · rw [hzero]
      rfl
    · rw [hmode]
      exact and_false _
  obtain ⟨q, hq⟩ := loop_headerEnd hp hnot (drop_headLines hdata)
  exact ⟨q, hreads.loop_eq hq⟩

theorem loop_of_pos (hpos : 0 < (announced opening.info).toInt)
    (hle : (announced opening.info).toNat ≤ t.length) :
    ∃ q, (init opening.mode).loop data 0 =
      (headEvents opening ++ [.headerEnd, .content (t.take (announced opening.info).toNat), .messageEnd],
        .done q ((headLines opening).length + 2 + (announced opening.info).toNat)) := by
  obtain ⟨p, hreads, hp, hexpected⟩ := reads_sizedHead h hlength hdata
  rw [decide_eq_true hpos, Bool.true_or] at hexpected
  have hdrop := drop_body hdata
  have hslt : (0 : BitVec 64).slt p.contentLength = true := by
    rw [BitVec.slt_eq_decide, hp.length_eq]
    exact decide_eq_true hpos
  obtain ⟨q, hq, -⟩ := loop_contentBegin_of_slt (p := { p with state := .contentBegin }) rfl hp.chunked_eq hslt
    hdrop (hp.length_eq ▸ hle)
  have hloop := (hreads.trans (reads_headerEnd hp hexpected (drop_headLines hdata))).loop_eq hq
  rw [hp.length_eq, append_assoc] at hloop
  exact ⟨q, hloop⟩

theorem loop_of_neg (hneg : (announced opening.info).toInt < 0)
    (hmode : opening.mode ≠ .request) (hne : t ≠ []) :
    ∃ q, (init opening.mode).loop data 0 = (headEvents opening ++ [.headerEnd, .content t],
      .reached q data.length) ∧ q.state = .contentEndless := by
  obtain ⟨p, hreads, hp, hexpected⟩ := reads_sizedHead h hlength hdata
  rw [decide_eq_true hneg, decide_eq_true hmode, Bool.true_and, Bool.or_true] at hexpected
  have hslt : p.contentLength.slt 0 = true := by
    rw [BitVec.slt_eq_decide, hp.length_eq]
    exact decide_eq_true hneg
  obtain ⟨c, t', rfl⟩ := exists_cons_of_ne_nil hne
  have hdrop := drop_body hdata
  obtain ⟨q, hq, hstate⟩ := loop_contentBegin_of_endless (p := { p with state := .contentBegin }) rfl
    hp.chunked_eq hslt hdrop
  have hloop := (hreads.trans (reads_headerEnd hp hexpected (drop_headLines hdata))).loop_eq hq
  rw [append_assoc] at hloop
  exact ⟨q, hloop, hstate⟩

end

theorem parseFragment_of_done {q : Parser} {es : List Event} {k : ℕ}
    (h : p.loop data 0 = (es, .done q k)) : p.parseFragment data 0 = (es, .returned q k) := by
  rw [parseFragment, h]
  rfl

theorem mem_parseFragment {e : Event} (h : e ∈ (p.loop data pos).1) :
    e ∈ (p.parseFragment data pos).1 := by
  rw [parseFragment]
  split
  · next hloop => exact (congrArg Prod.fst hloop) ▸ h
  · next hloop => exact (congrArg Prod.fst hloop) ▸ h
  · next hloop =>
    rw [hloop] at h
    split
    · exact mem_append_left _ h
    · exact h

end

end Parser

/-! ### The round trip -/

section

variable {opening : Opening} {rest : List Piece}

/-- **A parser has from the bytes written one message**, with the same start line, the same headers
and the length that was added, and the same content, and takes all of them. -/
def RoundTrips (opening : Opening) (rest : List Piece) : Prop :=
  ∃ g, generateMessage opening rest = .ok g ∧ ∃ (contents : List Bytes) (p : Parser),
    contents.flatten = body (opening.first ++ rest) ∧
      (Parser.init opening.mode).parseFragment g.output 0 =
        (headEvents opening ++ .headerEnd :: (contents.map .content ++ [.messageEnd]),
          .returned p g.output.length)

/-- The content is not too long: its length is an `int` if it is announced, and otherwise the size
of every part of a file fits into the buffer that it is written to. -/
def Fits (opening : Opening) (rest : List Piece) : Prop :=
  if opening.info.hasContentLength then opening.info.contentLength.toNat < 2 ^ 31
  else ∀ piece ∈ opening.first ++ rest, piece.isLong = false

instance : Decidable (Fits opening rest) :=
  inferInstanceAs (Decidable (if opening.info.hasContentLength then _ else _))

open Generator

theorem output_generateTrailer {g : Generator} (hbuffer : g.buffer = []) :
    (g.generateTrailer []).output = g.output ++ if g.chunked then lastChunk else [] := by
  rw [generateTrailer]
  split
  · simp only [push, flushBuffer, write, hbuffer, nil_append, flatMap_nil, append_nil]
    rfl
  · simp only [flushBuffer, write, hbuffer]

theorem output_afterHead (t : Bytes) :
    (afterHead opening).output ++ t = headLines opening ++ CR :: LF :: t :=
  append_assoc _ _ _

section

variable (h : WellFormed opening rest) (hlength : opening.info.hasContentLength = true)
include h hlength

theorem generateMessage_of_sized : ∃ g, generateMessage opening rest = .ok g ∧
      g.output = headLines opening ++ CR :: LF :: body (opening.first ++ rest) ∧
      g.output.length = (headLines opening).length + 2 + opening.info.contentLength.toNat := by
  have hchunked : (afterHead opening).chunked = false := by rw [afterHead, hlength]; rfl
  have hle : (body (opening.first ++ rest)).length ≤ (afterHead opening).remainingContentLength.toNat := by
    have hrest : (afterHead opening).remainingContentLength = opening.info.contentLength :=
      BitVec.sub_zero _
    rw [h.length_eq hlength, hrest]
  obtain ⟨g, hg, hout⟩ := foldlM_of_le hchunked hle
  obtain ⟨hbuffer, hchunked', -⟩ := foldlM_cases hg
  have hout' : (g.generateTrailer []).output =
      headLines opening ++ CR :: LF :: body (opening.first ++ rest) := by
    rw [output_generateTrailer hbuffer, hchunked', hchunked, hout, output_afterHead]
    exact append_nil _
  refine ⟨g.generateTrailer [], ?_, hout', ?_⟩
  · rw [generateMessage_eq h, hg]
    rfl
  · rw [hout', length_append, length_cons, length_cons, h.length_eq hlength]
    omega

theorem roundTrips_of_lt (hlt : opening.info.contentLength.toNat < 2 ^ 31) : RoundTrips opening rest := by
  obtain ⟨g, hg, hout, hsize⟩ := generateMessage_of_sized h hlength
  have hbody := h.length_eq hlength
  have htoInt : (announced opening.info).toInt = opening.info.contentLength.toNat := by
    rw [toInt_announced hlength]
    exact Int.bmod_eq_of_le (by omega) (by omega)
  refine ⟨g, hg, ?_⟩
  rcases eq_zero_or_pos opening.info.contentLength.toNat with hzero | hpos
  · have hzero' : (announced opening.info).toInt = 0 := by rw [htoInt, hzero]; rfl
    obtain ⟨q, hq⟩ := loop_of_nonpos h hlength hout hzero'.le (Or.inl hzero')
    refine ⟨[], q, (eq_nil_of_length_eq_zero (hbody.trans hzero)).symm, ?_⟩
    rw [parseFragment_of_done hq, hsize, hzero]
    rfl
  · have hpos' : 0 < (announced opening.info).toInt := by omega
    have hnat : (announced opening.info).toNat = opening.info.contentLength.toNat := by
      have := toNat_of_toInt_nonneg hpos'.le
      omega
    obtain ⟨q, hq⟩ := loop_of_pos h hlength hout hpos' (by omega)
    refine ⟨[body (opening.first ++ rest)], q, append_nil _, ?_⟩
    rw [parseFragment_of_done hq, hsize, hnat, take_of_length_le hbody.le]
    rfl

theorem not_roundTrips_of_le (hle : 2 ^ 31 ≤ opening.info.contentLength.toNat) : ¬RoundTrips opening rest := by
  rintro ⟨g, hg, contents, p, -, hparse⟩
  obtain ⟨g', hg', hout, hsize⟩ := generateMessage_of_sized h hlength
  obtain rfl := Except.ok.inj (hg.symm.trans hg')
  have hbody := h.length_eq hlength
  have hbound : (announced opening.info).toInt < 2 ^ 31 := by
    rw [toInt_announced hlength]
    exact Int.bmod_lt (by decide)
  -- The parser takes the wrong number of bytes, or it does not find the end.
  have htaken {es : List Event} {q : Parser} {k : ℕ}
      (hloop : (Parser.init opening.mode).loop g.output 0 = (es, .done q k)) : k = g.output.length := by
    rw [parseFragment_of_done hloop] at hparse
    cases hparse
    rfl
  rcases lt_trichotomy (announced opening.info).toInt 0 with hneg | hzero | hpos
  · by_cases hmode : opening.mode = .request
    · obtain ⟨q, hq⟩ := loop_of_nonpos h hlength hout hneg.le (Or.inr hmode)
      have := htaken hq
      omega
    · have hne : body (opening.first ++ rest) ≠ [] := fun hnil ↦ by
        rw [hnil, length_nil] at hbody
        omega
      obtain ⟨q, hq, hstate⟩ := loop_of_neg h hlength hout hneg hmode hne
      rw [parseFragment, hq] at hparse
      have hends : ¬(q.state = .contentBegin ∧ q.contentLength.slt 0 = true ∧ q.chunked = false ∧
          q.mode ≠ .message) := fun hends ↦ by
        rw [hstate] at hends
        cases hends.1
      simp only [if_neg hends, Prod.mk.injEq, append_cancel_left_eq, cons.injEq, true_and] at hparse
      have hmem : Event.messageEnd ∈ [Event.content (body (opening.first ++ rest))] :=
        hparse.1 ▸ mem_append_right _ (mem_singleton_self _)
      cases mem_singleton.1 hmem
  · obtain ⟨q, hq⟩ := loop_of_nonpos h hlength hout hzero.le (Or.inl hzero)
    have := htaken hq
    omega
  · have hnat := toNat_of_toInt_nonneg hpos.le
    obtain ⟨q, hq⟩ := loop_of_pos h hlength hout hpos (by omega)
    have := htaken hq
    omega

end

section

variable (h : WellFormed opening rest) (hlength : opening.info.hasContentLength = false)
include h hlength

theorem roundTrips_of_short (hshort : ∀ piece ∈ opening.first ++ rest, piece.isLong = false) : RoundTrips opening rest := by
  have hchunked : (afterHead opening).chunked = true := by rw [afterHead, hlength]; rfl
  have hg := foldlM_of_short hchunked hshort
  have hout : (((afterHead opening).write ((chunks (opening.first ++ rest)).flatMap
      chunkFrame)).generateTrailer []).output = headLines opening ++
        CR :: LF :: ((chunks (opening.first ++ rest)).flatMap chunkFrame ++ lastChunk) := by
    rw [output_generateTrailer rfl, ← output_afterHead, ← append_assoc]
    exact congrArg _ (if_pos hchunked)
  obtain ⟨q, hq⟩ := loop_chunks h hlength (fun _ ↦ of_mem_chunks) hout
  refine ⟨_, ?_, chunks (opening.first ++ rest), q, flatten_chunks _, parseFragment_of_done hq⟩
  rw [generateMessage_eq h, hg]
  rfl

/-- A message in chunks does not make the round trip if a part of a file is too long. -/
theorem not_roundTrips_of_long (hlong : ∃ piece ∈ opening.first ++ rest, piece.isLong = true) : ¬RoundTrips opening rest := by
  rintro ⟨g, hg, contents, p, -, hparse⟩
  have hchunked : (afterHead opening).chunked = true := by rw [afterHead, hlength]; rfl
  rw [generateMessage_eq h] at hg
  rcases hfold : (opening.first ++ rest).foldlM generatePiece (afterHead opening) with e | g₁
  · rw [hfold] at hg
    cases hg
  · rw [hfold] at hg
    cases hg
    obtain ⟨hbuffer, -, -⟩ := foldlM_cases hfold
    obtain ⟨ws, n, t, hws, hout⟩ := foldlM_of_long hchunked hlong hfold
    have hdata : (g₁.generateTrailer []).output = headLines opening ++
        CR :: LF :: (ws.flatMap chunkFrame ++
          (hexadecimal n ++ CR :: 0 :: (t ++ if g₁.chunked then lastChunk else []))) := by
      rw [output_generateTrailer hbuffer, hout, ← output_afterHead]
      simp only [append_assoc, cons_append]
    have herror := mem_parseFragment (protocolError_of_long h hlength hws hdata)
    rw [hparse] at herror
    simp [protocolError_notMem_headEvents] at herror

end

/-- A request with all of its content. -/
def post (chunk : Chunk) : Opening :=
  .request {
    version := .version11
    contentLength := chunk.size
    headers := [⟨ascii "Host".toList, ascii "a".toList, false⟩]
    trailers := []
    unparsedMethod := ascii "POST".toList
    unparsedUri := ascii "/".toList } (some (.bufferRef chunk))

theorem wellFormed_post (chunk : Chunk) : WellFormed (post chunk) [] where
  hasStart :=
    have hmethod : IsWord isToken (ascii "POST".toList) := ⟨by decide, by decide +kernel⟩
    have huri : IsWord isTarget (ascii "/".toList) := ⟨by decide, by decide +kernel⟩
    ⟨hmethod, huri⟩
  version_ne := nofun
  trailers_eq := rfl
  isPlain := by
    intro header hmem
    obtain rfl := mem_singleton.1 hmem
    exact ⟨⟨by decide, by decide +kernel⟩, ⟨by decide +kernel, by decide +kernel⟩, by decide,
      by decide⟩
  length_eq _ := by
    change (chunk.bytes ++ []).length = chunk.size.toNat
    rw [toNat_size, append_nil]

def twoGigabytes : Chunk := ⟨replicate (2 ^ 31) 0, length_replicate.trans_lt (by decide)⟩

theorem size_twoGigabytes : twoGigabytes.size = 2 ^ 31 :=
  congrArg (BitVec.ofNat 64) length_replicate

end

end Xzero.Http.Http1
