import Mathlib.Tactic.IntervalCases
import Xzero.Http.Http1.Pipelining
import Xzero.Http.Http1.Generator

/-!
# Reading parts of a message

What the loop of the parser does with the parts that a generator writes: words, numbers, lines. The
loop goes from one state to another while it takes the bytes of a part (`Parser.Reads`).
-/

namespace Xzero.Http.Http1

open List Util Generator Buffer Ref Numeral

namespace Parser

/-- The loop comes from one state to the other. -/
def Reads (data : Bytes) (s : Parser × ℕ) (es : List Event) (s' : Parser × ℕ) : Prop :=
  s.1.loop data s.2 = (es ++ (s'.1.loop data s'.2).1, (s'.1.loop data s'.2).2)

section

variable {data rest w : Bytes} {s s' s'' : Parser × ℕ} {es es' : List Event} {p p' : Parser}
  {pos n : ℕ} {c : UInt8}

theorem Reads.refl (data : Bytes) (s : Parser × ℕ) : Reads data s [] s := rfl

theorem Reads.trans (h : Reads data s es s') (h' : Reads data s' es' s'') :
    Reads data s (es ++ es') s'' := by
  rw [Reads, h, h', append_assoc]

theorem Reads.trans_nil (h : Reads data s [] s') (h' : Reads data s' es' s'') :
    Reads data s es' s'' := h.trans h'

theorem Reads.loop_eq (h : Reads data s es s') {x : Exit} (hx : s'.1.loop data s'.2 = (es', x)) :
    s.1.loop data s.2 = (es ++ es', x) := by
  rw [h, hx]

theorem getElem_of_drop (h : data.drop pos = c :: rest) :
    ∃ hpos : pos < data.length, data[pos] = c := by
  rw [← getElem?_eq_some_iff, ← head?_drop, h, head?_cons]

theorem drop_of_append (h : data.drop pos = w ++ rest) : data.drop (pos + w.length) = rest := by
  rw [← drop_drop, h, drop_left]

theorem drop_of_cons (h : data.drop pos = c :: rest) : data.drop (pos + 1) = rest := by
  rw [← drop_drop, h]
  rfl

theorem reads_of_next (h : data.drop pos = c :: rest) (hit : p.iterate data pos c = .next p' n es) :
    Reads data (p, pos) es (p', pos + n) := by
  obtain ⟨hpos, hc⟩ := getElem_of_drop h
  exact loop_of_next hpos (hc ▸ hit)

theorem reads_cons (h : data.drop pos = c :: rest) (hit : p.iterate data pos c = .next p' 1 [])
    (hrest : data.drop (pos + 1) = rest → Reads data (p', pos + 1) es s') : Reads data (p, pos) es s' :=
  (reads_of_next h hit).trans_nil (hrest (drop_of_cons h))

/-- A word that is not empty, of bytes of one kind. -/
structure IsWord (good : UInt8 → Bool) (w : Bytes) : Prop where
  ne_nil : w ≠ []
  all : ∀ c ∈ w, good c = true

variable {good : UInt8 → Bool}

/-- **Bytes of one kind are taken one by one**, and the parser counts them. -/
theorem reads_bytes (enc : ℕ → Parser)
    (hstep : ∀ n pos c, good c = true → (enc n).iterate data pos c = .next (enc (n + 1)) 1 [])
    (hw : ∀ c ∈ w, good c = true) (h : data.drop pos = w ++ rest) :
    Reads data (enc n, pos) [] (enc (n + w.length), pos + w.length) := by
  induction w generalizing n pos with
  | nil => exact Reads.refl _ _
  | cons c w ih =>
    obtain ⟨hc, hw⟩ := forall_mem_cons.1 hw
    refine reads_cons h (hstep n pos c hc) fun h' ↦ ?_
    have hreads := ih (n := n + 1) hw h'
    rwa [add_right_comm n, add_right_comm pos] at hreads

theorem reads_word (hw : IsWord good w) (enc : ℕ → Parser)
    (hfirst : ∀ c, good c = true → p.iterate data pos c = .next (enc 1) 1 [])
    (hstep : ∀ n pos c, good c = true → (enc n).iterate data pos c = .next (enc (n + 1)) 1 [])
    (h : data.drop pos = w ++ rest) :
    Reads data (p, pos) [] (enc w.length, pos + w.length) := by
  obtain ⟨c, w, rfl⟩ := exists_cons_of_ne_nil hw.ne_nil
  obtain ⟨hc, hall⟩ := forall_mem_cons.1 hw.all
  refine reads_cons h (hfirst c hc) fun h₁ ↦ ?_
  have hreads := reads_bytes (n := 1) enc hstep hall h₁
  rwa [add_assoc, add_comm 1] at hreads

theorem loop_of_drop_done (h : data.drop pos = c :: rest)
    (hit : p.iterate data pos c = .done p' n es) : p.loop data pos = (es, .done p' (pos + n)) := by
  obtain ⟨hpos, hc⟩ := getElem_of_drop h
  exact loop_of_done hpos (hc ▸ hit)

theorem reads_congr (h : data.drop pos = c :: rest)
    (hit : p.iterate data pos c = p'.iterate data pos c) (hreads : Reads data (p', pos) es s') :
    Reads data (p, pos) es s' := by
  obtain ⟨hpos, hc⟩ := getElem_of_drop h
  exact (loop_congr hpos (hc ▸ hit)).trans hreads

/-- **A number is taken digit by digit.** -/
theorem reads_digits {b : ℕ} (hb : 1 < b) (enc : ℕ → Parser) (hstep : ∀ m d pos, d < b →
      (enc m).iterate data pos (Numeral.digit d) = .next (enc (m * b + d)) 1 [])
    (h : data.drop pos = digits b n ++ rest) :
    Reads data (enc 0, pos) [] (enc n, pos + (digits b n).length) := by
  induction n using Nat.strong_induction_on generalizing rest with
  | _ n ih =>
    rcases lt_or_ge n b with hn | hn
    · rw [digits_of_lt hn] at h ⊢
      have hit := hstep 0 n pos hn
      rw [zero_mul, zero_add] at hit
      exact reads_of_next h hit
    · rw [digits_of_le hb hn] at h ⊢
      rw [append_assoc] at h
      have hreads := ih (n / b) (Nat.div_lt_self (by omega) hb) h
      have hit := hstep (n / b) (n % b) (pos + (digits b (n / b)).length) (Nat.mod_lt _ (by omega))
      rw [Nat.div_add_mod'] at hit
      rw [length_append, ← add_assoc]
      exact hreads.trans_nil (reads_of_next (drop_of_append h) hit)

/-! ### Words -/

theorem bytes_of_drop (h : data.drop pos = w ++ rest) : bytes ⟨pos, w.length⟩ data = w := by
  rw [bytes, h, take_left]

theorem ne_of_good (hc : good c = true) {c' : UInt8} (hc' : good c' = false) : c ≠ c' := by
  rintro rfl
  cases hc.symm.trans hc'

/-- What may be in a request's target. -/
def isTarget (c : UInt8) : Bool := isPrint c && c ≠ SP

/-- What may be in a text or in a value. -/
def isVisible (c : UInt8) : Bool := !isControl c

theorem isText_of_isVisible (hc : isVisible c = true) : isText c = true := by
  rw [isVisible] at hc
  rw [isText, hc, Bool.true_or, Bool.true_or]

/-! ### Start lines -/

/-- The digits of a version, as they are written. -/
def versionText : HttpVersion → List Char
  | .version09 => "HTTP/0.9".toList
  | .version10 => "HTTP/1.0".toList
  | .version11 => "HTTP/1.1".toList
  | .unknown => []

def versionNumbers : HttpVersion → BitVec 32 × BitVec 32
  | .version09 => (0, 9)
  | .version10 => (1, 0)
  | .version11 => (1, 1)
  | .unknown => (0, 0)

variable {version : HttpVersion}

theorem reads_requestVersion (hversion : version ≠ .unknown)
    (hs : p.state = .requestProtocolBegin) (hmajor : p.versionMajor = 0) (hminor : p.versionMinor = 0)
    (h : data.drop pos = ascii (versionText version) ++ CR :: LF :: rest) :
    Reads data (p, pos) [.requestBegin (p.method.bytes data) (p.entity.bytes data) version]
      ({ p with
        state := .headerNameBegin, versionMajor := (versionNumbers version).1,
        versionMinor := (versionNumbers version).2 }, pos + 10) := by
  cases p
  subst hs hmajor hminor
  cases version
  · exact absurd rfl hversion
  all_goals
    iterate 9 refine reads_cons h rfl fun h ↦ ?_
    exact reads_of_next (n := 1) h rfl

theorem reads_statusVersion (hversion : version ≠ .unknown)
    (hs : p.state = .statusLineBegin) (hmajor : p.versionMajor = 0) (hminor : p.versionMinor = 0)
    (h : data.drop pos = ascii (versionText version) ++ SP :: rest) :
    Reads data (p, pos) [] ({ p with
        state := .statusCodeBegin, versionMajor := (versionNumbers version).1,
        versionMinor := (versionNumbers version).2 }, pos + 9) := by
  cases p
  subst hs hmajor hminor
  cases version
  · exact absurd rfl hversion
  all_goals
    iterate 8 refine reads_cons h rfl fun h ↦ ?_
    exact reads_of_next (n := 1) h rfl

def requestLine (method entity : Bytes) (version : HttpVersion) : Bytes :=
  method ++ SP :: entity ++ SP :: ascii (versionText version) ++ CRLF

def statusLine (version : HttpVersion) (code : ℕ) (text : Bytes) : Bytes :=
  ascii (versionText version) ++ SP :: decimal code ++ SP :: text ++ CRLF

/-- The parser is at the beginning of a header. -/
structure AtHeader (mode : ParseMode) (chunked : Bool) (length : BitVec 64) (p : Parser) : Prop where
  state_eq : p.state = .headerNameBegin
  mode_eq : p.mode = mode
  chunked_eq : p.chunked = chunked
  length_eq : p.contentLength = length
  size_eq : p.value.size = 0

theorem length_versionText (hversion : version ≠ .unknown) :
    (ascii (versionText version)).length = 8 := by
  cases version
  · exact absurd rfl hversion
  all_goals rfl

theorem reads_method (hs : p.state = .requestLineBegin) (hw : IsWord isToken w)
    (h : data.drop pos = w ++ SP :: rest) :
    Reads data (p, pos) []
      ({ p with state := .requestEntityBegin, method := ⟨pos, w.length⟩ }, pos + w.length + 1) := by
  refine (reads_word hw (fun n ↦ { p with state := .requestMethod, method := ⟨pos, n⟩ })
    (fun c hc ↦ ?_) (fun n pos c hc ↦ ?_) h).trans_nil
    (reads_of_next (drop_of_append h) rfl)
  · simp only [iterate, hs, if_pos hc, nextChar]
  · have hsp : c ≠ SP := ne_of_good hc (by decide)
    simp only [iterate, if_neg hsp, if_pos hc, nextChar, shr]

theorem reads_target (hs : p.state = .requestEntityBegin) (hw : IsWord isTarget w)
    (h : data.drop pos = w ++ SP :: rest) :
    Reads data (p, pos) []
      ({ p with state := .requestProtocolBegin, entity := ⟨pos, w.length⟩ }, pos + w.length + 1) := by
  have hprint {c : UInt8} (hc : isTarget c = true) : isPrint c = true :=
    (Bool.and_eq_true _ _ ▸ hc).1
  refine (reads_word hw (fun n ↦ { p with state := .requestEntity, entity := ⟨pos, n⟩ })
    (fun c hc ↦ ?_) (fun n pos c hc ↦ ?_) h).trans_nil
    (reads_of_next (drop_of_append h) rfl)
  · simp only [iterate, hs, if_pos (hprint hc), nextChar]
  · have hsp : c ≠ SP := ne_of_good hc (by decide)
    simp only [iterate, if_neg hsp, if_pos (hprint hc), nextChar, shr]

/-- **A request line is read.** -/
theorem reads_requestLine {method entity : Bytes} (hm : IsWord isToken method)
    (he : IsWord isTarget entity) (hversion : version ≠ .unknown)
    (h : data = requestLine method entity version ++ rest) :
    ∃ p, Reads data (init .request, 0) [.requestBegin method entity version]
      (p, (requestLine method entity version).length) ∧ AtHeader .request false (-1) p := by
  have h₀ : data.drop 0 = method ++ SP :: (entity ++ SP :: (ascii (versionText version) ++
      CR :: LF :: rest)) := by
    simp only [h, requestLine, CRLF, append_assoc, cons_append, nil_append, drop_zero]
  have h₁ := drop_of_cons (drop_of_append h₀)
  have h₂ := drop_of_cons (drop_of_append h₁)
  have hmethod : bytes ⟨0, method.length⟩ data = method := bytes_of_drop h₀
  have hentity : bytes ⟨0 + method.length + 1, entity.length⟩ data = entity := bytes_of_drop h₁
  obtain ⟨c, m, hcm⟩ := exists_cons_of_ne_nil hm.ne_nil
  have hlength : (requestLine method entity version).length =
      0 + method.length + 1 + entity.length + 1 + 10 := by
    simp only [requestLine, CRLF, length_append, length_cons, length_nil,
      length_versionText hversion]
    omega
  rw [hlength]
  have hbegin : Reads data (init .request, 0) [] (_, 0 + 0) :=
    reads_of_next (hcm ▸ h₀) rfl
  have hreads := hbegin.trans_nil ((reads_method rfl hm h₀).trans_nil ((reads_target rfl he h₁).trans_nil
    (reads_requestVersion hversion rfl rfl rfl h₂)))
  rw [hmethod, hentity] at hreads
  exact ⟨_, hreads, rfl, rfl, rfl, rfl, rfl⟩

variable {d : ℕ}

theorem isDigit_digit (hd : d < 10) : isDigit (Numeral.digit d) = true := by
  revert d
  decide

theorem toNat_digit (hd : d < 10) : (Numeral.digit d).toNat - 48 = d := by
  revert d
  decide

theorem exists_cons_digits {b : ℕ} (hb : 1 < b) (n : ℕ) :
    ∃ d < b, ∃ w, digits b n = Numeral.digit d :: w := by
  obtain ⟨c, w, hw⟩ := exists_cons_of_ne_nil (digits_ne_nil hb)
  obtain ⟨d, hd, rfl⟩ := exists_of_mem_digits hb (hw ▸ mem_cons_self)
  exact ⟨d, hd, w, hw⟩

variable {code : ℕ}

theorem reads_statusCode (hs : p.state = .statusCodeBegin) (hcode : p.code = 0)
    (h : data.drop pos = decimal code ++ SP :: rest) :
    Reads data (p, pos) [] ({ p with state := .statusMessageBegin, code := BitVec.ofNat 32 code },
      pos + (decimal code).length + 1) := by
  obtain ⟨d, hd, w, hw⟩ := exists_cons_digits (b := 10) (by decide) code
  have h₀ : data.drop pos = Numeral.digit d :: (w ++ SP :: rest) := by
    rw [h, decimal, hw, cons_append]
  have hfirst : p.iterate data pos (Numeral.digit d) =
      iterate { p with state := .statusCode, code := BitVec.ofNat 32 0 } data pos (Numeral.digit d) := by
    simp only [iterate, hs, isDigit_digit hd, hcode, Bool.not_true, Bool.false_eq_true, if_false]
    rfl
  refine reads_congr h₀ hfirst ?_
  refine (reads_digits (by decide)
    (fun n ↦ { p with state := .statusCode, code := BitVec.ofNat 32 n }) (fun m d pos hd ↦ ?_) h).trans_nil ?_
  · simp only [iterate, readStatusCode, isDigit_digit hd, toNat_digit hd, if_true, nextChar,
      BitVec.ofNat_add, BitVec.ofNat_mul]
    rfl
  · exact reads_of_next (drop_of_append h) rfl

theorem reads_statusText (hversion : version ≠ .unknown)
    (hmajor : p.versionMajor = (versionNumbers version).1)
    (hminor : p.versionMinor = (versionNumbers version).2) (hs : p.state = .statusMessageBegin)
    (hw : IsWord isText w) (h : data.drop pos = w ++ CR :: LF :: rest) :
    Reads data (p, pos) [.responseBegin version p.code w]
      ({ p with state := .headerNameBegin, message := ⟨pos, w.length⟩ }, pos + w.length + 2) := by
  have hbytes : bytes ⟨pos, w.length⟩ data = w := bytes_of_drop h
  refine (reads_word hw (fun n ↦ { p with state := .statusMessage, message := ⟨pos, n⟩ })
    (fun c hc ↦ ?_) (fun n pos c hc ↦ ?_) h).trans_nil ?_
  · simp only [iterate, hs, if_pos hc, nextChar]
  · have hcr : c ≠ CR := ne_of_good hc (by decide)
    have hlf : c ≠ LF := ne_of_good hc (by decide)
    simp only [iterate, hc, hcr, hlf, ne_eq, not_false_eq_true, decide_true, Bool.and_self, if_true,
      nextChar, shr]
  refine reads_cons (drop_of_append h) rfl fun h₂ ↦ reads_of_next (n := 1) h₂ ?_
  simp only [iterate, if_true, hmajor, hminor, hbytes]
  cases version
  · exact absurd rfl hversion
  all_goals rfl

/-- **A response line is read.** -/
theorem reads_statusLine {text : Bytes} (ht : IsWord isText text)
    (hversion : version ≠ .unknown) (h : data = statusLine version code text ++ rest) :
    ∃ p, Reads data (init .response, 0) [.responseBegin version (BitVec.ofNat 32 code) text]
      (p, (statusLine version code text).length) ∧ AtHeader .response false (-1) p := by
  have h₀ : data.drop 0 = ascii (versionText version) ++ SP :: (decimal code ++ SP :: (text ++
      CR :: LF :: rest)) := by
    simp only [h, statusLine, CRLF, append_assoc, cons_append, nil_append, drop_zero]
  have h₁ := drop_of_cons (drop_of_append h₀)
  rw [length_versionText hversion] at h₁
  have h₂ := drop_of_cons (drop_of_append h₁)
  have hlength : (statusLine version code text).length =
      0 + 9 + (decimal code).length + 1 + text.length + 2 := by
    simp only [statusLine, CRLF, length_append, length_cons, length_nil,
      length_versionText hversion]
    omega
  rw [hlength]
  obtain ⟨c, w, hcw⟩ : ∃ c w, ascii (versionText version) = c :: w :=
    exists_cons_of_ne_nil fun hnil ↦ by
      have := length_versionText hversion
      rw [hnil] at this
      cases this
  have hbegin : Reads data (init .response, 0) [] (_, 0 + 0) :=
    reads_of_next (hcw ▸ h₀) rfl
  have hreads := hbegin.trans_nil ((reads_statusVersion hversion rfl rfl rfl h₀).trans_nil
    ((reads_statusCode rfl rfl h₁).trans_nil (reads_statusText hversion rfl rfl rfl ht h₂)))
  exact ⟨_, hreads, rfl, rfl, rfl, rfl, rfl⟩

/-! ### Headers -/

/-- The value has no control characters, and there is no white space before it. -/
structure IsValue (value : Bytes) : Prop where
  all : ∀ c ∈ value, isVisible c = true
  head_ne : value.head? ≠ some SP

theorem reads_name (hs : p.state = .headerNameBegin) (hw : IsWord isToken w)
    (h : data.drop pos = w ++ ':'.toUInt8 :: SP :: rest) :
    Reads data (p, pos) [] ({ p with
        state := .lwsSpHt, lwsNext := ⟨.headerValueBegin, rfl⟩, lwsNull := ⟨.headerValueEnd, rfl⟩,
        name := ⟨pos, w.length⟩ }, pos + w.length + 2) := by
  refine (reads_word hw (fun n ↦ { p with state := .headerName, name := ⟨pos, n⟩ })
    (fun c hc ↦ ?_) (fun n pos c hc ↦ ?_) h).trans_nil
    (reads_cons (drop_of_append h) rfl fun h₁ ↦ reads_of_next (n := 1) h₁ rfl)
  · simp only [iterate, hs, if_pos hc, nextChar]
  · simp only [iterate, if_pos hc, nextChar, shr]

/-- The parser has a header and is about to report it. -/
structure HasHeader (data : Bytes) (header : HeaderField) (mode : ParseMode) (chunked : Bool)
    (length : BitVec 64) (p : Parser) : Prop where
  state_eq : p.state = .headerValueEnd
  name_eq : p.name.bytes data = header.name
  value_eq : p.value.bytes data = header.value
  mode_eq : p.mode = mode
  chunked_eq : p.chunked = chunked
  length_eq : p.contentLength = length

variable {b : UInt8} {header : HeaderField}

theorem reads_value (hs : p.state = .lwsSpHt)
    (hnext : p.lwsNext.1 = .headerValueBegin) (hname : p.name.bytes data = header.name)
    (hsize : p.value.size = 0) (hvalue : IsValue header.value) (hb : ¬(b = SP ∨ b = HT))
    (h : data.drop pos = header.value ++ CR :: LF :: b :: rest) :
    ∃ q, Reads data (p, pos) [] (q, pos + header.value.length + 2) ∧
      HasHeader data header p.mode p.chunked p.contentLength q := by
  have hbegin (c : UInt8) (hc : ¬(c = SP ∨ c = HT)) : p.iterate data pos c =
      .next { p with state := .headerValueBegin } 0 [] := by
    simp only [iterate, hs, if_neg hc, hnext]
  obtain ⟨name, w, sensitive⟩ := header
  rcases w with - | ⟨c, w⟩
  · have hbytes : p.value.bytes data = [] := by rw [bytes, hsize, take_zero]
    have hlf : Reads data ({ p with state := .headerValueBegin }, pos) []
        ({ p with state := .headerValueEnd }, pos + 2) :=
      reads_cons h rfl fun h₁ ↦ reads_of_next (n := 1) h₁ rfl
    exact ⟨_, (reads_of_next h (hbegin CR (by decide))).trans_nil hlf, rfl, hname, hbytes, rfl, rfl, rfl⟩
  · have hsp : ¬(c = SP ∨ c = HT) := by
      rintro (rfl | rfl)
      · exact hvalue.head_ne rfl
      · exact absurd (hvalue.all HT mem_cons_self) (by decide)
    have hword := reads_word (p := { p with state := .headerValueBegin })
      ⟨cons_ne_nil c w, hvalue.all⟩ (fun n ↦ { p with state := .headerValue, value := ⟨pos, n⟩ })
      (fun c hc ↦ by simp only [iterate, if_pos (isText_of_isVisible hc), nextChar])
      (fun n pos c hc ↦ by
        have hcr : c ≠ CR := ne_of_good hc (by decide)
        simp only [iterate, if_neg hcr, if_pos (isText_of_isVisible hc), nextChar, shr]) h
    have hlf : Reads data ({ p with state := .headerValue, value := ⟨pos, (c :: w).length⟩ },
        pos + (c :: w).length) [] ({ p with
          state := .headerValueEnd, lwsNext := ⟨.headerValue, rfl⟩, lwsNull := ⟨.headerValueEnd, rfl⟩,
          value := ⟨pos, (c :: w).length⟩ }, pos + (c :: w).length + 2) := by
      refine reads_cons (drop_of_append h) rfl fun h₁ ↦ reads_cons h₁ rfl fun h₂ ↦ ?_
      refine reads_of_next (n := 0) h₂ ?_
      simp only [iterate, if_neg hb]
      rfl
    exact ⟨_, (reads_of_next h (hbegin c hsp)).trans_nil (hword.trans_nil hlf), rfl, hname,
      bytes_of_drop h, rfl, rfl, rfl⟩

/-- **A header is read**, and the parser takes from it what it does. -/
theorem reads_headerLine {mode : ParseMode} {chunked chunked' : Bool} {length length' : BitVec 64}
    (hp : AtHeader mode chunked length p)
    (hname : IsWord isToken header.name) (hvalue : IsValue header.value) (hb : ¬(b = SP ∨ b = HT))
    (haccept : ∀ q : Parser, q.chunked = chunked → q.contentLength = length →
      q.acceptHeader header.name header.value =
        ({ q with chunked := chunked', contentLength := length' }, es))
    (h : data.drop pos = headerLine header ++ b :: rest) :
    ∃ p', Reads data (p, pos) es (p', pos + (headerLine header).length) ∧
      AtHeader mode chunked' length' p' := by
  have h₀ : data.drop pos = header.name ++ ':'.toUInt8 :: SP :: (header.value ++ CR :: LF :: b :: rest) := by
    rw [h, headerLine, CRLF, append_assoc, append_assoc, append_assoc]
    rfl
  have h₁ : data.drop (pos + header.name.length + 2) = header.value ++ CR :: LF :: b :: rest :=
    drop_of_cons (drop_of_cons (drop_of_append h₀))
  have h₂ : data.drop (pos + header.name.length + 2 + header.value.length + 2) = b :: rest :=
    drop_of_cons (drop_of_cons (drop_of_append h₁))
  obtain ⟨q, hreads, hq⟩ := reads_value (p := { p with
    state := .lwsSpHt, lwsNext := ⟨.headerValueBegin, rfl⟩, lwsNull := ⟨.headerValueEnd, rfl⟩,
    name := ⟨pos, header.name.length⟩ }) rfl rfl (bytes_of_drop h₀) hp.size_eq hvalue hb h₁
  have hlength : pos + (headerLine header).length =
      pos + header.name.length + 2 + header.value.length + 2 + 0 := by
    simp only [headerLine, CRLF, length_append, length_cons, length_nil]
    change pos + (header.name.length + 2 + header.value.length + 2) = _
    omega
  have hit : q.iterate data (pos + header.name.length + 2 + header.value.length + 2) b = .next { q with
      chunked := chunked', contentLength := length', name := q.name.clear, value := q.value.clear,
      state := .headerNameBegin } 0 es := by
    simp only [iterate, hq.state_eq, hq.name_eq, hq.value_eq,
      haccept q (hq.chunked_eq.trans hp.chunked_eq) (hq.length_eq.trans hp.length_eq)]
  rw [hlength]
  exact ⟨_, (reads_name hp.state_eq hname h₀).trans_nil (hreads.trans_nil (reads_of_next h₂ hit)), rfl,
    hq.mode_eq.trans hp.mode_eq, rfl, rfl, rfl⟩

/-- A header that says nothing about the content. -/
structure IsPlain (header : HeaderField) : Prop where
  name_isWord : IsWord isToken header.name
  value_isValue : IsValue header.value
  ne_contentLength : iequals header.name (ascii "Content-Length".toList) = false
  ne_transferEncoding : iequals header.name (ascii "Transfer-Encoding".toList) = false

theorem acceptHeader_of_isPlain (h : IsPlain header) (p : Parser) :
    p.acceptHeader header.name header.value = (p, [.header header.name header.value]) := by
  rw [acceptHeader, if_neg, if_neg]
  · exact Bool.eq_false_iff.1 h.ne_transferEncoding
  · exact Bool.eq_false_iff.1 h.ne_contentLength

/-- The headers of a message, as a listener has them. -/
def headerEvents (headers : List HeaderField) : List Event :=
  headers.map fun header ↦ .header header.name header.value

theorem not_blank_of_isToken (hc : isToken c = true) : ¬(c = SP ∨ c = HT) := by
  rintro (rfl | rfl) <;> exact absurd hc (by decide)

theorem exists_cons_headerLines {headers : List HeaderField}
    (hname : ∀ header ∈ headers, IsWord isToken header.name) (hb : ¬(b = SP ∨ b = HT))
    (rest : Bytes) :
    ∃ b' rest', headers.flatMap headerLine ++ b :: rest = b' :: rest' ∧ ¬(b' = SP ∨ b' = HT) := by
  rcases headers with - | ⟨header, headers⟩
  · exact ⟨b, rest, rfl, hb⟩
  · obtain ⟨hne, hall⟩ := hname header mem_cons_self
    obtain ⟨c, w, hcw⟩ := exists_cons_of_ne_nil hne
    have heq : (header :: headers).flatMap headerLine ++ b :: rest = header.name ++
        (ascii ": ".toList ++ header.value ++ CRLF ++ headers.flatMap headerLine ++ b :: rest) := by
      simp only [flatMap_cons, headerLine, append_assoc]
    rw [hcw] at heq
    exact ⟨c, _, heq, not_blank_of_isToken (hall c (hcw ▸ mem_cons_self))⟩

section

variable {mode : ParseMode} {chunked : Bool} {length : BitVec 64}

/-- **The headers are read one after the other.** -/
theorem reads_headers {headers : List HeaderField} {b : UInt8} (hp : AtHeader mode chunked length p)
    (hplain : ∀ header ∈ headers, IsPlain header) (hb : ¬(b = SP ∨ b = HT))
    (h : data.drop pos = headers.flatMap headerLine ++ b :: rest) :
    ∃ p', Reads data (p, pos) (headerEvents headers)
        (p', pos + (headers.flatMap headerLine).length) ∧ AtHeader mode chunked length p' := by
  induction headers generalizing p pos with
  | nil => exact ⟨p, Reads.refl _ _, hp⟩
  | cons header headers ih =>
    obtain ⟨hheader, hplain⟩ := forall_mem_cons.1 hplain
    rw [flatMap_cons, append_assoc] at h
    obtain ⟨b', rest', heq, hb'⟩ := exists_cons_headerLines
      (fun header hmem ↦ (hplain header hmem).name_isWord) hb rest
    have haccept (q : Parser) (hq : q.chunked = chunked) (hq' : q.contentLength = length) :
        q.acceptHeader header.name header.value =
          ({ q with chunked := chunked, contentLength := length }, [.header header.name header.value]) := by
      subst hq hq'
      exact acceptHeader_of_isPlain hheader q
    obtain ⟨p₁, hreads, hp₁⟩ := reads_headerLine hp hheader.name_isWord hheader.value_isValue hb' haccept
      (heq ▸ h)
    obtain ⟨p₂, hreads', hp₂⟩ := ih hp₁ hplain (drop_of_append h)
    refine ⟨p₂, ?_, hp₂⟩
    rw [flatMap_cons, length_append, ← add_assoc]
    exact hreads.trans hreads'

theorem reads_headerEnd (hp : AtHeader mode chunked length p) (hexpected : p.isContentExpected = true)
    (h : data.drop pos = CR :: LF :: rest) :
    Reads data (p, pos) [.headerEnd] ({ p with state := .contentBegin }, pos + 2) := by
  have hit : p.iterate data pos CR = .next { p with state := .headerEndLf } 1 [] := by
    simp only [iterate, hp.state_eq]
    rfl
  refine reads_cons h hit fun h₁ ↦ reads_of_next (n := 1) h₁ ?_
  exact if_pos hexpected

theorem loop_headerEnd (hp : AtHeader mode chunked length p) (hexpected : p.isContentExpected = false)
    (h : data.drop pos = CR :: LF :: rest) :
    ∃ q, p.loop data pos = ([.headerEnd, .messageEnd], .done q (pos + 2)) := by
  have hit : p.iterate data pos CR = .next { p with state := .headerEndLf } 1 [] := by
    simp only [iterate, hp.state_eq]
    rfl
  have hdone : iterate { p with state := .headerEndLf } data (pos + 1) LF =
      .done { p with state := .messageBegin } 1 [.headerEnd, .messageEnd] := by
    rw [iterate_headerEndLf rfl, if_pos rfl]
    exact if_neg (Bool.eq_false_iff.1 hexpected)
  exact ⟨_, (reads_of_next h hit).loop_eq (loop_of_drop_done (drop_of_cons h) hdone)⟩

end

/-! ### Chunks -/

/-- The parser is at the size of a chunk. -/
def AtChunk (p : Parser) : Prop :=
  p.state = .contentChunkSizeBegin ∨ (p.state = .contentChunkSize ∧ p.contentLength = 0)

theorem isXDigit_digit (hd : d < 16) : isXDigit (Numeral.digit d) = true := by
  revert d
  decide

theorem readChunkSize_digit (hd : d < 16) (p : Parser) :
    p.readChunkSize (Numeral.digit d) = p.readDigit d := by
  interval_cases d <;> rfl

theorem reads_chunkSize (hp : AtChunk p) (h : data.drop pos = hexadecimal n ++ CR :: rest) :
    Reads data (p, pos) [] ({ p with state := .contentChunkLf1, contentLength := BitVec.ofNat 64 n },
      pos + (hexadecimal n).length + 1) := by
  obtain ⟨d, hd, w, hw⟩ := exists_cons_digits (b := 16) (by decide) n
  have h₀ : data.drop pos = Numeral.digit d :: (w ++ CR :: rest) := by
    rw [h, hexadecimal, hw, cons_append]
  have hfirst : p.iterate data pos (Numeral.digit d) = iterate { p with
      state := .contentChunkSize, contentLength := BitVec.ofNat 64 0 } data pos (Numeral.digit d) := by
    rcases hp with hs | ⟨hs, hlength⟩
    · rw [iterate_contentChunkSizeBegin hs, isXDigit_digit hd]
      rfl
    · have hzero : p.contentLength = BitVec.ofNat 64 0 := hlength
      rw [← hs, ← hzero]
  refine reads_congr h₀ hfirst ?_
  refine (reads_digits (by decide) (fun n ↦ { p with
    state := .contentChunkSize, contentLength := BitVec.ofNat 64 n }) (fun m d pos hd ↦ ?_) h).trans_nil ?_
  · rw [iterate_contentChunkSize rfl, readChunkSize_digit hd, readDigit, BitVec.ofNat_add,
      BitVec.ofNat_mul]
    rfl
  · exact reads_of_next (drop_of_append h) rfl

def chunkFrame (bytes : Bytes) : Bytes := hexadecimal bytes.length ++ CRLF ++ bytes ++ CRLF

/-- **A chunk is read.** -/
theorem reads_chunk (hp : AtChunk p) (hne : w ≠ []) (hlt : w.length < 2 ^ 64)
    (h : data.drop pos = chunkFrame w ++ rest) :
    ∃ p', Reads data (p, pos) [.content w] (p', pos + (chunkFrame w).length) ∧ AtChunk p' := by
  have h₀ : data.drop pos = hexadecimal w.length ++ CR :: (LF :: (w ++ CR :: LF :: rest)) := by
    simp only [h, chunkFrame, CRLF, append_assoc, cons_append, nil_append]
  have h₁ := drop_of_cons (drop_of_append h₀)
  have h₂ := drop_of_cons h₁
  have h₃ := drop_of_append h₂
  have hpos : 0 < w.length := length_pos_iff.2 hne
  have hframe : pos + (chunkFrame w).length =
      pos + (hexadecimal w.length).length + 1 + 1 + w.length + 1 + 1 := by
    simp only [chunkFrame, CRLF, length_append, length_cons, length_nil]
    omega
  have hsize := reads_chunkSize hp h₀
  rw [hframe]
  generalize pos + (hexadecimal w.length).length + 1 = k at h₁ h₂ h₃ hsize ⊢
  have hnat : (BitVec.ofNat 64 w.length).toNat = w.length := by
    rw [BitVec.toNat_ofNat, Nat.mod_eq_of_lt hlt]
  have hlength : BitVec.ofNat 64 w.length ≠ 0 := fun hzero ↦ by
    rw [hzero] at hnat
    exact hpos.ne hnat
  have hmin : min (BitVec.ofNat 64 w.length).toNat (data.length - (k + 1)) = w.length := by
    have := congrArg length h₂
    rw [length_drop, length_append] at this
    rw [hnat]
    omega
  have hlf : iterate { p with state := .contentChunkLf1, contentLength := BitVec.ofNat 64 w.length } data
      k LF =
        .next { p with state := .contentChunkBody, contentLength := BitVec.ofNat 64 w.length } 1 [] := by
    rw [iterate_contentChunkLf1 rfl, expect, if_pos rfl, if_pos hlength]
    rfl
  have hbody : iterate { p with state := .contentChunkBody, contentLength := BitVec.ofNat 64 w.length } data
      (k + 1) (w.head hne) =
        .next { p with state := .contentChunkBody, contentLength := 0 } w.length [.content w] := by
    rw [iterate_contentChunkBody rfl hlength, hmin, h₂, take_left, BitVec.sub_self]
    rfl
  have hend : Reads data ({ p with state := .contentChunkBody, contentLength := 0 },
        k + 1 + w.length) []
      ({ p with state := .contentChunkSize, contentLength := 0 }, k + 1 + w.length + 1 + 1) :=
    reads_cons h₃ rfl fun h₄ ↦ reads_of_next h₄ rfl
  have hcons : data.drop (k + 1) = w.head hne :: (w.tail ++ CR :: LF :: rest) := by
    rw [h₂, ← cons_append, cons_head_tail]
  exact ⟨_, hsize.trans_nil ((reads_of_next h₁ hlf).trans_nil
    ((reads_of_next hcons hbody).trans hend)), Or.inr ⟨rfl, rfl⟩⟩

def lastChunk : Bytes := ascii "0\r\n".toList ++ CRLF

/-- **The last chunk ends the message.** -/
theorem loop_lastChunk (hp : AtChunk p) (h : data.drop pos = lastChunk) :
    ∃ q, p.loop data pos = ([.messageEnd], .done q data.length) := by
  have h₀ : data.drop pos = hexadecimal 0 ++ CR :: (LF :: CR :: LF :: []) := h
  have hlength : data.length = pos + (hexadecimal 0).length + 1 + 1 + 1 + 1 := by
    have := congrArg length h
    rw [length_drop] at this
    change data.length - pos = 5 at this
    change data.length = pos + 5
    omega
  have h₁ := drop_of_cons (drop_of_append h₀)
  have hreads : Reads data (p, pos) []
      ({ p with state := .contentChunkLf3, contentLength := 0 }, pos + (hexadecimal 0).length + 1 + 1 + 1) :=
    (reads_chunkSize hp h₀).trans_nil (reads_cons h₁ rfl fun h₂ ↦ reads_of_next h₂ rfl)
  rw [hlength]
  exact ⟨_, hreads.loop_eq (loop_of_drop_done (drop_of_cons (drop_of_cons h₁)) rfl)⟩

theorem protocolError_of_sizeLine (hp : AtChunk p) (hc : c ≠ LF)
    (h : data.drop pos = hexadecimal n ++ CR :: c :: rest) :
    .protocolError 400 ∈ (p.loop data pos).1 := by
  have h₁ := drop_of_cons (drop_of_append h)
  have hit : iterate { p with state := .contentChunkLf1, contentLength := BitVec.ofNat 64 n } data
      (pos + (hexadecimal n).length + 1) c = .next { p with
        state := .protocolError, contentLength := BitVec.ofNat 64 n } 0 [.protocolError 400] := by
    rw [iterate_contentChunkLf1 rfl, expect, if_neg hc]
    rfl
  have hreads := (reads_chunkSize hp h).trans_nil (reads_of_next h₁ hit)
  rw [hreads]
  exact mem_append_left _ (mem_singleton_self _)

theorem reads_contentBegin (hs : p.state = .contentBegin) (hchunked : p.chunked = true)
    (h : data.drop pos = c :: rest) : ∃ p', Reads data (p, pos) [] (p', pos) ∧ AtChunk p' :=
  ⟨_, reads_of_next h (iterate_contentBegin_of_chunked hs hchunked), Or.inl rfl⟩

/-! ### Content of a known length -/

theorem toIntLoop_eq_foldl {val : BitVec 32} (hw : ∀ c ∈ w, ∃ d < 10, c = Numeral.digit d) :
    toIntLoop val w = w.foldl (fun v c ↦ v * 10 + BitVec.ofNat 32 (c.toNat - 48)) val := by
  induction w generalizing val with
  | nil => rfl
  | cons c w ih =>
    obtain ⟨⟨d, hd, rfl⟩, htail⟩ := forall_mem_cons.1 hw
    have hdigit : ¬(Numeral.digit d < 48 ∨ 57 < Numeral.digit d) := by
      clear hw
      revert d
      decide
    rw [toIntLoop, if_neg hdigit, ih htail, foldl_cons]

theorem toInt_eq_toIntLoop (hne : w ≠ []) (hw : ∀ c ∈ w, ∃ d < 10, c = Numeral.digit d) :
    toInt w = toIntLoop 0 w := by
  obtain ⟨c, w, rfl⟩ := exists_cons_of_ne_nil hne
  obtain ⟨d, hd, rfl⟩ := hw c mem_cons_self
  have hsign : Numeral.digit d ≠ 45 ∧ Numeral.digit d ≠ 43 := by
    clear hne hw
    revert d
    decide
  unfold toInt
  split
  · next heq => exact absurd (cons.inj heq).1 hsign.1
  · next heq => exact absurd (cons.inj heq).1 hsign.2
  · rfl

/-- **`toInt` reads what was printed, modulo 2^32.** -/
theorem toInt_decimal (n : ℕ) : toInt (decimal n) = BitVec.ofNat 32 n := by
  have hall : ∀ c ∈ decimal n, ∃ d < 10, c = Numeral.digit d :=
    fun c hc ↦ exists_of_mem_digits (by decide) hc
  have hne : decimal n ≠ [] := digits_ne_nil (by decide)
  rw [toInt_eq_toIntLoop hne hall, toIntLoop_eq_foldl hall]
  refine foldl_digits (by decide) (BitVec.ofNat 32) (fun m d hd ↦ ?_) n
  rw [toNat_digit hd, BitVec.ofNat_add, BitVec.ofNat_mul]
  rfl

theorem toInt_signExtend (n : ℕ) : ((BitVec.ofNat 32 n).signExtend 64).toInt =
    if n % 2 ^ 32 < 2 ^ 31 then ((n % 2 ^ 32 : ℕ) : ℤ) else ((n % 2 ^ 32 : ℕ) : ℤ) - 2 ^ 32 := by
  rw [BitVec.toInt_signExtend_of_le (by decide), BitVec.toInt_eq_toNat_cond, BitVec.toNat_ofNat]
  split <;> split <;> omega

theorem isValue_decimal (n : ℕ) : IsValue (decimal n) where
  all c hc := by
    obtain ⟨d, hd, rfl⟩ := exists_of_mem_digits (by decide) hc
    clear hc
    revert d
    decide
  head_ne hhead := by
    obtain ⟨d, hd, heq⟩ := exists_of_mem_digits (by decide) (mem_of_mem_head? hhead)
    revert d
    decide

/-- **The content has the length that was announced**, as far as there is so much. -/
theorem loop_contentBegin_of_slt (hs : p.state = .contentBegin) (hchunked : p.chunked = false)
    (hslt : (0 : BitVec 64).slt p.contentLength = true) (h : data.drop pos = w)
    (hle : p.contentLength.toNat ≤ w.length) :
    ∃ q, p.loop data pos = ([.content (w.take p.contentLength.toNat), .messageEnd],
      .done q (pos + p.contentLength.toNat)) ∧ q.state = .messageBegin := by
  rw [BitVec.slt_eq_decide, decide_eq_true_iff] at hslt
  have hzero : p.contentLength.slt 0 = false := by
    rw [BitVec.slt_eq_decide, decide_eq_false_iff_not]
    exact hslt.not_gt
  have hpos : 0 < p.contentLength.toNat := by
    refine Nat.pos_of_ne_zero fun hnat ↦ ?_
    rw [BitVec.eq_of_toNat_eq (y := 0) hnat] at hslt
    exact lt_irrefl _ hslt
  obtain ⟨c, rest, rfl⟩ := exists_cons_of_ne_nil (length_pos_iff.1 (hpos.trans_le hle))
  have hbegin : p.iterate data pos c = .next { p with state := .content } 0 [] := by
    simp only [iterate, hs, hchunked, hzero, Bool.false_eq_true, if_false, Bool.not_false, if_true]
  have hmin : min p.contentLength.toNat (data.length - pos) = p.contentLength.toNat := by
    rw [← h, length_drop] at hle
    exact min_eq_left hle
  have hdone : iterate { p with state := .content } data (pos + 0) c =
      .done { p with state := .messageBegin, contentLength := 0 } p.contentLength.toNat
        [.content ((data.drop pos).take p.contentLength.toNat), .messageEnd] := by
    simp only [iterate, Nat.add_zero, hmin, BitVec.ofNat_toNat, BitVec.setWidth_eq, BitVec.sub_self]
    rfl
  have hloop := (reads_of_next h hbegin).loop_eq (loop_of_drop_done h hdone)
  rw [h] at hloop
  exact ⟨_, hloop, rfl⟩

theorem loop_contentBegin_of_endless (hs : p.state = .contentBegin) (hchunked : p.chunked = false)
    (hslt : p.contentLength.slt 0 = true) (h : data.drop pos = c :: rest) :
    ∃ q, p.loop data pos = ([.content (c :: rest)], .reached q data.length) ∧
      q.state = .contentEndless := by
  obtain ⟨hpos, -⟩ := getElem_of_drop h
  have hbegin : p.iterate data pos c = .next { p with state := .contentEndless } 0 [] := by
    simp only [iterate, hs, hchunked, hslt, Bool.false_eq_true, if_false, Bool.not_true]
  have hloop := (reads_of_next h hbegin).trans_nil (reads_of_next h (iterate_contentEndless rfl))
  rw [Nat.add_zero, Nat.add_sub_cancel' hpos.le, h] at hloop
  exact ⟨_, hloop.loop_eq (loop_of_le le_rfl), rfl⟩

end

end Parser

end Xzero.Http.Http1
