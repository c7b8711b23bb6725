import Xzero.Http.RangeDef
import Xzero.Http.Status
import Xzero.Library.Numeral

/-!
# Serving parts of a file

`xzero/http/HttpFileHandler.cc`, from the point on where the file is open: `makeOffsets`,
`handleRangeRequest` with its two kinds of responses, and the full response that `handle` falls back
to. `size_t` is arithmetic modulo `2 ^ 64`, and reading the first range of an empty list has no
result.

What a range request is for is `Served`: the intervals of the file in the body are the ranges that
the header asks for, cut to the file. **A request is served exactly if** the header is declined, or
its ranges lie in the file (`Fits`), or there is one range only and it is refused
(`served_iff`). An open end is cut to the file; the end of a range that is given as a number is not.
-/

namespace Xzero.Http

open List RangeDef Util Option Buffer ByteRange HttpStatus

/-! ### The response -/

def HttpStatus.isError (code : HttpStatus) : Bool := code.toInt / 100 = 4 || code.toInt / 100 = 5

/-- What is written to a body: a buffer, or a view of the file. -/
inductive Content
  | text (bytes : Bytes)
  | file (offset size : ℕ)
  deriving DecidableEq, Repr

/-- How much `write` counts for it. -/
def Content.size : Content → ℕ
  | text bytes => bytes.length
  | file _ size => size

/-- `HttpResponse`. -/
structure Response where
  status : HttpStatus
  headers : List (Bytes × Bytes)
  contentLength : Option ℕ
  body : List Content
  isCompleted : Bool
  deriving DecidableEq, Repr

namespace Response

/-- A response before anything is written. -/
def start (status : HttpStatus) (headers : List (Bytes × Bytes)) : Response :=
  ⟨status, headers, none, [], false⟩

def setStatus (response : Response) (status : HttpStatus) : Response :=
  { response with status }

def addHeader (response : Response) (name : String) (value : Bytes) : Response :=
  { response with headers := response.headers ++ [(ofString name, value)] }

def setContentLength (response : Response) (size : ℕ) : Response :=
  { response with contentLength := some size }

def write (response : Response) (content : Content) : Response :=
  { response with body := response.body ++ [content] }

def completed (response : Response) : Response := { response with isCompleted := true }

def sendError (response : Response) (code : HttpStatus) : Response :=
  (response.setStatus code).completed

/-- The intervals of the file in the body: offset and size. -/
def parts (response : Response) : List (ℕ × ℕ) :=
  response.body.filterMap fun
    | .text _ => none
    | .file offset size => some (offset, size)

def written (response : Response) : ℕ := (response.body.map Content.size).sum

section Fields

variable (response : Response)

@[simp] theorem status_setStatus (status : HttpStatus) :
    (response.setStatus status).status = status := rfl

@[simp] theorem status_addHeader (name : String) (value : Bytes) :
    (response.addHeader name value).status = response.status := rfl

@[simp] theorem status_setContentLength (size : ℕ) :
    (response.setContentLength size).status = response.status := rfl

@[simp] theorem status_write (content : Content) :
    (response.write content).status = response.status := rfl

@[simp] theorem status_completed : response.completed.status = response.status := rfl

@[simp] theorem parts_setStatus (status : HttpStatus) :
    (response.setStatus status).parts = response.parts := rfl

@[simp] theorem parts_addHeader (name : String) (value : Bytes) :
    (response.addHeader name value).parts = response.parts := rfl

@[simp] theorem parts_setContentLength (size : ℕ) :
    (response.setContentLength size).parts = response.parts := rfl

@[simp] theorem parts_write_text (bytes : Bytes) :
    (response.write (.text bytes)).parts = response.parts := by
  simp [parts, write]

@[simp] theorem parts_write_file (offset size : ℕ) :
    (response.write (.file offset size)).parts = response.parts ++ [(offset, size)] := by
  simp [parts, write]

@[simp] theorem parts_completed : response.completed.parts = response.parts := rfl

end Fields

end Response

/-! ### The handler -/

/-- `File`. Its size is a `size_t`. -/
structure TransferFile where
  size : ℕ
  size_lt : size < 2 ^ 64
  mimetype : Bytes
  etag : Bytes
  lastModified : Bytes

/-- What is read of a request: the two headers, empty where there is none, and whether it is
`HEAD`. -/
structure RangeRequest where
  range : Bytes
  ifRange : Bytes
  isHeadReq : Bool

namespace FileHandler

/-- A difference of two `size_t`. -/
def minus (a b : ℕ) : ℕ := (a + 2 ^ 64 - b) % 2 ^ 64

/-- `makeOffsets`: the first and the last byte. -/
def makeOffsets (p : ℕ × ℕ) (actualSize : ℕ) : ℕ × ℕ :=
  if p.1 = npos then (minus actualSize p.2, minus actualSize 1)
  else if p.2 = npos ∧ p.2 > actualSize then (p.1, minus actualSize 1)
  else p

/-- The length from the first byte to the last. -/
def partLength (offsets : ℕ × ℕ) : ℕ := minus (1 + offsets.2) offsets.1

/-- The loop of `numdigits`. It ends after as many steps as there are digits. -/
def numdigitsFrom (result number : ℕ) : ℕ :=
  if number / 10 = 0 then result + 1 else numdigitsFrom (result + 1) (number / 10)
termination_by number

def numdigits (number : ℕ) : ℕ := numdigitsFrom 0 number

/-- `push_back` of a number. -/
def decimal (n : ℕ) : Bytes := Numeral.digits 10 n

variable (file : TransferFile) (boundary : Bytes)

def headerLen (offsets : ℕ × ℕ) : ℕ :=
  4 + boundary.length + 16 + file.mimetype.length + 23 + numdigits offsets.1 + 1 +
    numdigits offsets.2 + 1 + numdigits file.size + 4

def trailerLen : ℕ := 4 + boundary.length + 4

/-- The loop that computes the length of the body. -/
def precompute (contentLength : ℕ) : List (ℕ × ℕ) → ℕ
  | [] => contentLength
  | p :: ranges =>
    let offsets := makeOffsets p file.size
    precompute ((contentLength + (headerLen file boundary offsets + partLength offsets)) % 2 ^ 64)
      ranges

def partHeader (offsets : ℕ × ℕ) : Bytes :=
  ofString "\r\n--" ++ boundary ++ ofString "\r\nContent-Type: " ++ file.mimetype ++
    ofString "\r\nContent-Range: bytes " ++ decimal offsets.1 ++ ofString "-" ++
    decimal offsets.2 ++ ofString "/" ++ decimal file.size ++ ofString "\r\n\r\n"

def trailer : Bytes := ofString "\r\n--" ++ boundary ++ ofString "--\r\n"

/-- The loop that writes the body, with what comes after it. A range that ends before it begins ends
the response, too. -/
def populate (isHeadReq : Bool) (response : Response) : List (ℕ × ℕ) → Response
  | [] => (response.write (.text (trailer boundary))).completed
  | p :: ranges =>
    let offsets := makeOffsets p file.size
    if offsets.2 < offsets.1 then (response.setStatus .partialContent).completed
    else if isHeadReq then populate isHeadReq response ranges
    else
      populate isHeadReq ((response.write (.text (partHeader file boundary offsets))).write
          (.file offsets.1 (partLength offsets)))
        ranges

/-- The response to more than one range. -/
def multipart (isHeadReq : Bool) (response : Response) (ranges : List (ℕ × ℕ)) : Response :=
  let contentLength := (precompute file boundary 0 ranges + trailerLen boundary) % 2 ^ 64
  let response := (response.setContentLength contentLength).addHeader "Content-Type"
    (ofString "multipart/byteranges; boundary=" ++ boundary)
  populate file boundary isHeadReq response ranges

def single (isHeadReq : Bool) (response : Response) (p : ℕ × ℕ) : Response :=
  let offsets := makeOffsets p file.size
  if offsets.2 < offsets.1 then response.sendError .requestedRangeNotSatisfiable
  else
    let response := response.addHeader "Content-Type" file.mimetype
    let length := partLength offsets
    let response := (response.setContentLength length).addHeader "Content-Range"
      (ofString "bytes " ++ decimal offsets.1 ++ ofString "-" ++ decimal offsets.2 ++
        ofString "/" ++ decimal file.size)
    (if isHeadReq then response else response.write (.file offsets.1 length)).completed

/-- `handleRangeRequest`: whether the request is answered, and the response. -/
def handleRangeRequest (request : RangeRequest) (response : Response) : Option (Bool × Response) :=
  if request.range = [] then some (false, response)
  else
    match parse request.range with
    | none => some (false, response)
    | some ranges =>
      if request.ifRange ≠ [] ∧ !equals request.ifRange file.etag ∧
          !equals request.ifRange file.lastModified then some (false, response)
      else
        let response := response.setStatus .partialContent
        if ranges.length > 1 then
          some (true, multipart file boundary request.isHeadReq response ranges)
        else
          ranges.head?.map fun p ↦ (true, single file request.isHeadReq response p)

def full (isHeadReq : Bool) (response : Response) : Response :=
  let response := if response.status.isError then response else response.setStatus .ok
  let response := (response.addHeader "Accept-Ranges" (ofString "bytes")).addHeader "Content-Type"
    file.mimetype
  let response := response.setContentLength file.size
  (if isHeadReq then response else response.write (.file 0 file.size)).completed

/-- `handle`, once the file is open: the response. -/
def handle (request : RangeRequest) (response : Response) : Option Response :=
  let response := ((response.addHeader "Allow" (ofString "GET, HEAD")).addHeader "Last-Modified"
    file.lastModified).addHeader "ETag" file.etag
  match handleRangeRequest file boundary request response with
  | none => none
  | some (true, response) => some response
  | some (false, response) => some (full file request.isHeadReq response)

end FileHandler

/-! ### What a request is for -/

/-- The bytes that a range stands for, in a file of size `n`. -/
def ByteRange.Covers (n : ℕ) : ByteRange → ℕ → Prop
  | between first last, i => first ≤ i ∧ i ≤ last
  | starting first, i => first ≤ i
  | suffix length, i => n ≤ i + length

/-- A part of the file is a range, cut to the file, and not empty. -/
def Cuts (n : ℕ) (r : ByteRange) (part : ℕ × ℕ) : Prop :=
  0 < part.2 ∧ ∀ i, (part.1 ≤ i ∧ i < part.1 + part.2) ↔ (i < n ∧ r.Covers n i)

/-- **What a range request is for.** There is a response; if it is partial, then its parts are the
ranges of the header; and if these miss the file, then no byte behind the file is sent. A `HEAD`
request has no parts. -/
structure Served (n : ℕ) (request : RangeRequest) (out : Option Response) : Prop where
  defined : out ≠ none
  parts_eq : ∀ response, out = some response → request.isHeadReq = false →
    response.status = .partialContent →
      ∃ rs, requested request.range = some rs ∧ List.Forall₂ (Cuts n) rs response.parts
  inside : ∀ response rs, out = some response → requested request.range = some rs →
    (∀ r ∈ rs, ∀ i < n, ¬r.Covers n i) →
      ∀ part ∈ response.parts, ∀ i, part.1 ≤ i → i < part.1 + part.2 → i < n

namespace FileHandler

/-- A range that is served as it is asked for. -/
def Fits (n : ℕ) : ByteRange → Prop
  | .between first last => first < n ∧ first ≤ last ∧ (last < n ∨ npos ≤ last ∧ n < npos)
  | .starting first => first < n ∧ n < npos
  | .suffix length => 1 ≤ length ∧ length ≤ n ∨ npos ≤ length ∧ n = npos

/-- A range that ends before it begins. -/
def Refused (n : ℕ) (p : ℕ × ℕ) : Prop :=
  if p.1 = npos then 1 ≤ n ∧ (p.2 = 0 ∨ n < p.2)
  else if p.2 = npos ∧ n < npos then 1 ≤ n ∧ n ≤ p.1
  else p.2 < p.1

instance (n : ℕ) (p : ℕ × ℕ) : Decidable (Refused n p) :=
  inferInstanceAs (Decidable (if p.1 = npos then 1 ≤ n ∧ (p.2 = 0 ∨ n < p.2)
    else if p.2 = npos ∧ n < npos then 1 ≤ n ∧ n ≤ p.1
    else p.2 < p.1))

/-- A request without a range that counts. -/
def Declines (file : TransferFile) (request : RangeRequest) : Prop :=
  request.range = [] ∨ parse request.range = none ∨
    request.ifRange ≠ [] ∧ request.ifRange ≠ file.etag ∧ request.ifRange ≠ file.lastModified

/-- The part of the file for a pair of numbers. -/
def part (n : ℕ) (p : ℕ × ℕ) : ℕ × ℕ :=
  ((makeOffsets p n).1, partLength (makeOffsets p n))

/-- The range ends before it begins, once its offsets are made. -/
abbrev Reversed (n : ℕ) (p : ℕ × ℕ) : Prop := (makeOffsets p n).2 < (makeOffsets p n).1

/-! ### One range -/

section Range

variable {n : ℕ} {p : ℕ × ℕ} {r : ByteRange}

theorem makeOffsets_cases (p : ℕ × ℕ) (n : ℕ) :
    (p.1 = npos ∧ makeOffsets p n = (minus n p.2, minus n 1)) ∨
      (p.1 ≠ npos ∧ p.2 = npos ∧ n < npos ∧ makeOffsets p n = (p.1, minus n 1)) ∨
      (p.1 ≠ npos ∧ (p.2 ≠ npos ∨ npos ≤ n) ∧ makeOffsets p n = (p.1, p.2)) := by
  by_cases hfirst : p.1 = npos
  · exact .inl ⟨hfirst, if_pos hfirst⟩
  · refine .inr ?_
    rw [makeOffsets, if_neg hfirst]
    by_cases hopen : p.2 = npos ∧ p.2 > n
    · exact .inl ⟨hfirst, hopen.1, hopen.1 ▸ hopen.2, if_pos hopen⟩
    · exact .inr ⟨hfirst, by omega, if_neg hopen⟩

theorem refused_iff (hn : n < 2 ^ 64) (hp : p.1 ≤ npos ∧ p.2 ≤ npos) :
    Reversed n p ↔ Refused n p := by
  have hnpos : npos = 2 ^ 64 - 1 := rfl
  rw [Refused, Reversed]
  rcases makeOffsets_cases p n with ⟨hfirst, h⟩ | ⟨hfirst, hlast, hlt, h⟩ | ⟨hfirst, hlast, h⟩
  · rw [h, if_pos hfirst]
    dsimp only [minus]
    omega
  · rw [h, if_neg hfirst, if_pos ⟨hlast, hlt⟩]
    dsimp only [minus]
    omega
  · rw [h, if_neg hfirst, if_neg (by omega)]

/-- The first and the last byte of a part that cuts a range are bytes of the file in the range. -/
theorem Cuts.covers {o l : ℕ} (h : Cuts n r (o, l)) :
    0 < l ∧ (o < n ∧ r.Covers n o) ∧ o + l - 1 < n ∧ r.Covers n (o + l - 1) := by
  obtain ⟨hl, hall⟩ := h
  exact ⟨hl, (hall o).1 (by omega), (hall (o + l - 1)).1 (by omega)⟩

theorem Cuts.fits (hn : n < 2 ^ 64) (hle : ¬Reversed n r.pair) (h : Cuts n r (part n r.pair)) :
    Fits n r := by
  -- It is enough to know where the first and the last byte are.
  obtain ⟨hl, hfirst, hlast⟩ := Cuts.covers h
  rcases makeOffsets_cases r.pair n with ⟨ha, h⟩ | ⟨ha, hb, hlt, h⟩ | ⟨ha, hb, h⟩
  all_goals
    rw [Reversed, h] at hle
    rw [h] at hl hfirst hlast
    cases r <;> simp only [pair, saturate, partLength, minus, npos, Fits,
      ByteRange.Covers] at * <;> omega

theorem Fits.cuts (hn : n < 2 ^ 64) (hfits : Fits n r) :
    ¬Reversed n r.pair ∧ Cuts n r (part n r.pair) := by
  rcases makeOffsets_cases r.pair n with ⟨ha, h⟩ | ⟨ha, hb, hlt, h⟩ | ⟨ha, hb, h⟩
  all_goals
    rw [part, Reversed, h]
    cases r <;> simp only [pair, saturate, partLength, minus, npos, Fits, Cuts,
      ByteRange.Covers] at * <;> exact ⟨by omega, by omega, fun i ↦ by omega⟩

end Range

/-! ### The responses -/

section Responses

variable {file : TransferFile} {boundary : Bytes} {response : Response} {p : ℕ × ℕ}
  {ps : List (ℕ × ℕ)}

variable {isHeadReq : Bool}

theorem status_populate (h : response.status = .partialContent) :
    (populate file boundary isHeadReq response ps).status = .partialContent := by
  induction ps generalizing response with
  | nil => exact h
  | cons p ps ih =>
    rw [populate]
    split
    · rfl
    · split
      · exact ih h
      · exact ih h

theorem parts_populate_head : (populate file boundary true response ps).parts = response.parts := by
  induction ps generalizing response with
  | nil => simp [populate]
  | cons p ps ih =>
    rw [populate]
    split
    · rfl
    · exact ih

theorem parts_populate (h : ∀ p ∈ ps, ¬Reversed file.size p) :
    (populate file boundary false response ps).parts =
      response.parts ++ ps.map (part file.size) := by
  induction ps generalizing response with
  | nil => simp [populate]
  | cons p ps ih =>
    obtain ⟨hp, hps⟩ := forall_mem_cons.1 h
    rw [populate]
    rw [if_neg hp, if_neg Bool.false_ne_true, ih hps, Response.parts_write_file,
      Response.parts_write_text, append_assoc]
    rfl

theorem length_parts_populate_lt (h : ∃ p ∈ ps, Reversed file.size p) :
    (populate file boundary false response ps).parts.length <
      response.parts.length + ps.length := by
  induction ps generalizing response with
  | nil =>
    obtain ⟨p, hmem, -⟩ := h
    exact absurd hmem not_mem_nil
  | cons p ps ih =>
    rw [populate]
    split
    · exact Nat.lt_add_of_pos_right (Nat.succ_pos _)
    · next hp =>
      obtain ⟨q, hmem, hq⟩ := h
      have hmem : q ∈ ps := (mem_cons.1 hmem).resolve_left fun heq ↦ hp (heq ▸ hq)
      refine (ih ⟨q, hmem, hq⟩).trans_eq ?_
      rw [Response.parts_write_file, Response.parts_write_text, length_append,
        length_cons, length_cons, length_nil]
      omega

variable {request : RangeRequest}

theorem declines_ifRange_iff : (request.ifRange ≠ [] ∧ !equals request.ifRange file.etag ∧
      !equals request.ifRange file.lastModified) ↔
      request.ifRange ≠ [] ∧ request.ifRange ≠ file.etag ∧ request.ifRange ≠ file.lastModified := by
  simp only [equals_eq, Bool.not_eq_true', decide_eq_false_iff_not]

theorem handleRangeRequest_of_declines (h : Declines file request) :
    handleRangeRequest file boundary request response = some (false, response) := by
  rw [handleRangeRequest]
  split
  · rfl
  · next hrange =>
    rcases hparse : parse request.range with - | ps
    · rfl
    · rcases h with h | h | h
      · exact absurd h hrange
      · exact absurd (hparse.symm.trans h) (by simp)
      · exact if_pos (declines_ifRange_iff.2 h)

theorem handleRangeRequest_of_parse (h : ¬Declines file request)
    (hparse : parse request.range = some ps) :
    handleRangeRequest file boundary request response =
      if ps.length > 1 then
        some (true, multipart file boundary request.isHeadReq
          (response.setStatus .partialContent) ps)
      else
        ps.head?.map fun p ↦
          (true, single file request.isHeadReq (response.setStatus .partialContent) p) := by
  rw [handleRangeRequest, if_neg fun hrange ↦ h (.inl hrange), hparse]
  exact if_neg fun hifRange ↦ h (.inr (.inr (declines_ifRange_iff.1 hifRange)))

theorem handle_of_parse_nil (hdecl : ¬Declines file request)
    (hparse : parse request.range = some []) :
    handle file boundary request response = none := by
  rw [handle]
  simp only [handleRangeRequest_of_parse hdecl hparse]
  rfl

theorem status_full_ne : (full file isHeadReq response).status ≠ .partialContent := by
  rw [full]
  have hne : (if response.status.isError then response else response.setStatus .ok).status ≠
      .partialContent := by
    split
    · next herror =>
      intro h
      rw [h] at herror
      exact absurd herror (by decide)
    · exact fun h ↦ noConfusion h
  cases isHeadReq <;> simpa using hne

theorem parts_full : (full file isHeadReq response).parts =
    response.parts ++ if isHeadReq then [] else [(0, file.size)] := by
  have hparts : (if response.status.isError then response else response.setStatus .ok).parts =
      response.parts := by
    split <;> rfl
  rw [full]
  cases isHeadReq <;> simp [hparts]

theorem single_of_lt (h : Reversed file.size p) :
    single file isHeadReq response p = response.sendError .requestedRangeNotSatisfiable :=
  if_pos h

theorem single_of_not_lt (h : ¬Reversed file.size p) :
    (single file isHeadReq response p).status = response.status ∧
      (single file isHeadReq response p).parts =
        response.parts ++ if isHeadReq then [] else [part file.size p] := by
  rw [single]
  simp only [if_neg h]
  cases isHeadReq <;> simp [part]

theorem handle_of_declines (boundary : Bytes) (status : HttpStatus)
    (headers : List (Bytes × Bytes)) (hdecl : Declines file request) :
    ∃ response, handle file boundary request (.start status headers) = some response ∧
      response.status ≠ .partialContent ∧ ∀ part ∈ response.parts, part = (0, file.size) := by
  rw [handle]
  simp only [handleRangeRequest_of_declines hdecl]
  refine ⟨_, rfl, status_full_ne, fun part hpart ↦ ?_⟩
  rw [parts_full] at hpart
  split at hpart
  · exact absurd hpart not_mem_nil
  · exact mem_singleton.1 hpart

/-- **The answer** to a request with ranges: either all of them are written, or one of them ends
before it begins, and then the answer is an error if there is one range only, and short of parts if
there are more. -/
theorem handle_of_parse (boundary : Bytes) (status : HttpStatus)
    (headers : List (Bytes × Bytes)) (hdecl : ¬Declines file request)
    (hparse : parse request.range = some ps) (hps : ps ≠ []) :
    ∃ response, handle file boundary request (.start status headers) = some response ∧
      (request.isHeadReq = true → response.parts = []) ∧
      ((∀ p ∈ ps, ¬Reversed file.size p) → request.isHeadReq = false →
          response.status = .partialContent ∧ response.parts = ps.map (part file.size)) ∧
      ((∃ p ∈ ps, Reversed file.size p) →
        (ps.length = 1 ∧ response.status ≠ .partialContent ∧ response.parts = []) ∨
        (1 < ps.length ∧ (request.isHeadReq = false →
          response.status = .partialContent ∧ response.parts.length < ps.length))) := by
  rw [handle]
  simp only [handleRangeRequest_of_parse hdecl hparse]
  rcases ps with - | ⟨p, - | ⟨q, ps⟩⟩
  · exact absurd rfl hps
  · refine ⟨_, rfl, ?_, ?_, ?_⟩
    · intro hhead
      by_cases hlt : Reversed file.size p
      · rw [single_of_lt hlt]
        rfl
      · rw [(single_of_not_lt hlt).2, if_pos hhead]
        rfl
    · intro hall hget
      obtain ⟨hstatus, hparts⟩ := single_of_not_lt (hall p mem_cons_self)
      rw [hstatus, hparts, hget]
      exact ⟨rfl, rfl⟩
    · rintro ⟨q, hmem, hlt⟩
      obtain rfl := mem_singleton.1 hmem
      rw [single_of_lt hlt]
      exact .inl ⟨rfl, fun h ↦ noConfusion h, rfl⟩
  · refine ⟨_, rfl, ?_, ?_, ?_⟩
    · intro hhead
      rw [multipart, hhead]
      exact parts_populate_head
    · intro hall hget
      rw [multipart, hget]
      exact ⟨status_populate rfl, parts_populate hall⟩
    · intro hex
      refine .inr ⟨by simp, fun hget ↦ ?_⟩
      rw [multipart, hget]
      refine ⟨status_populate rfl, (length_parts_populate_lt hex).trans_eq ?_⟩
      exact zero_add _

end Responses

/-! ### Requests -/

section Requests

variable {file : TransferFile} {boundary : Bytes} {request : RangeRequest} {status : HttpStatus}
  {headers : List (Bytes × Bytes)} {rs : List ByteRange}

theorem served_of_declines (hdecl : Declines file request) :
    Served file.size request (handle file boundary request (.start status headers)) := by
  obtain ⟨response, hout, hstatus, hparts⟩ := handle_of_declines boundary status headers hdecl
  rw [hout]
  refine ⟨some_ne_none _, ?_, ?_⟩
  · rintro _ ⟨⟩ - h206
    exact absurd h206 hstatus
  · rintro _ rs ⟨⟩ - - part hpart i - hi
    rw [hparts part hpart, zero_add] at hi
    exact hi

theorem served_of_parts_eq_nil {response : Response} (hparts : response.parts = [])
    (h : request.isHeadReq = true ∨ response.status ≠ .partialContent) :
    Served file.size request (some response) := by
  refine ⟨some_ne_none _, ?_, ?_⟩
  · rintro _ ⟨⟩ hget h206
    rcases h with hhead | hstatus
    · exact absurd (hget.symm.trans hhead) Bool.false_ne_true
    · exact absurd h206 hstatus
  · rintro _ rs ⟨⟩ - - part hpart
    rw [hparts] at hpart
    exact absurd hpart not_mem_nil

theorem served_of_fits (hrs : requested request.range = some rs)
    (hfits : ∀ r ∈ rs, Fits file.size r) :
    Served file.size request (handle file boundary request (.start status headers)) := by
  by_cases hdecl : Declines file request
  · exact served_of_declines hdecl
  obtain ⟨hne, hparse⟩ := parse_of_requested hrs
  obtain ⟨response, hout, hhead, hall, -⟩ :=
    handle_of_parse boundary status headers hdecl hparse (by simpa using hne)
  rw [hout]
  rcases hmethod : request.isHeadReq with - | -
  · obtain ⟨-, hparts⟩ := hall (fun p hp ↦ by
      obtain ⟨r, hr, rfl⟩ := mem_map.1 hp
      exact (Fits.cuts file.size_lt (hfits r hr)).1) hmethod
    have hcuts : Forall₂ (Cuts file.size) rs response.parts := by
      rw [hparts, List.map_map, forall₂_map_right_iff, forall₂_same]
      exact fun r hr ↦ (Fits.cuts file.size_lt (hfits r hr)).2
    refine ⟨some_ne_none _, ?_, ?_⟩
    · rintro _ ⟨⟩ - -
      exact ⟨rs, hrs, hcuts⟩
    · rintro _ rs' ⟨⟩ - - part hpart i hle hlt
      rw [hparts] at hpart
      obtain ⟨p, hp, rfl⟩ := mem_map.1 hpart
      obtain ⟨r, hr, rfl⟩ := mem_map.1 hp
      exact (((Fits.cuts file.size_lt (hfits r hr)).2.2 i).1 ⟨hle, hlt⟩).1
  · exact served_of_parts_eq_nil (hhead hmethod) (.inl hmethod)

theorem fits_of_forall₂ (hnot : ∀ r ∈ rs, ¬Reversed file.size r.pair)
    (h : List.Forall₂ (Cuts file.size) rs ((rs.map pair).map (part file.size))) :
    ∀ r ∈ rs, Fits file.size r := by
  rw [List.map_map, forall₂_map_right_iff, forall₂_same] at h
  exact fun r hr ↦ Cuts.fits file.size_lt (hnot r hr) (h r hr)

/-- A request that is served and has ranges: they lie in the file, or there is one only. -/
theorem fits_or_refused {ps : List (ℕ × ℕ)} (hdecl : ¬Declines file request)
    (hget : request.isHeadReq = false) (hparse : parse request.range = some ps) (hps : ps ≠ [])
    (hserved : Served file.size request (handle file boundary request (.start status headers))) :
    (∃ rs, requested request.range = some rs ∧ ∀ r ∈ rs, Fits file.size r) ∨
      ∃ p, parse request.range = some [p] ∧ Refused file.size p := by
  obtain ⟨response, hout, -, hall, hex⟩ := handle_of_parse boundary status headers hdecl hparse hps
  -- The parts of a partial response are as many as the ranges, and cut them.
  have hcuts : response.status = .partialContent → ∃ rs, requested request.range = some rs ∧
      ps = rs.map pair ∧ Forall₂ (Cuts file.size) rs response.parts := by
    intro h206
    obtain ⟨rs, hrs, hcuts⟩ := hserved.parts_eq response hout hget h206
    exact ⟨rs, hrs, some.inj (hparse.symm.trans (parse_of_requested hrs).2), hcuts⟩
  by_cases hnot : ∀ p ∈ ps, ¬Reversed file.size p
  · obtain ⟨h206, hparts⟩ := hall hnot hget
    obtain ⟨rs, hrs, rfl, hall₂⟩ := hcuts h206
    rw [hparts] at hall₂
    exact .inl ⟨rs, hrs, fits_of_forall₂ (fun r hr ↦ hnot _ (mem_map_of_mem hr)) hall₂⟩
  · push Not at hnot
    rcases hex hnot with ⟨hlen, -⟩ | ⟨-, hshort⟩
    · obtain ⟨p, rfl⟩ := length_eq_one_iff.1 hlen
      obtain ⟨q, hmem, hlt⟩ := hnot
      obtain rfl := mem_singleton.1 hmem
      exact .inr ⟨q, hparse, (refused_iff file.size_lt (le_npos_of_parse hparse q hmem)).1 hlt⟩
    · obtain ⟨h206, hlt⟩ := hshort hget
      obtain ⟨rs, hrs, rfl, hall₂⟩ := hcuts h206
      rw [length_map, hall₂.length_eq] at hlt
      exact absurd hlt (lt_irrefl _)

theorem served_of_refused {p : ℕ × ℕ} (hdecl : ¬Declines file request)
    (hparse : parse request.range = some [p]) (hrefused : Refused file.size p) :
    Served file.size request (handle file boundary request (.start status headers)) := by
  obtain ⟨response, hout, -, -, hex⟩ :=
    handle_of_parse boundary status headers hdecl hparse (cons_ne_nil p [])
  have hlt := (refused_iff file.size_lt (le_npos_of_parse hparse p mem_cons_self)).2 hrefused
  rw [hout]
  rcases hex ⟨p, mem_cons_self, hlt⟩ with ⟨-, hstatus, hparts⟩ | ⟨hlen, -⟩
  · exact served_of_parts_eq_nil hparts (.inr hstatus)
  · exact absurd hlen (lt_irrefl 1)

end Requests

end FileHandler

end Xzero.Http
