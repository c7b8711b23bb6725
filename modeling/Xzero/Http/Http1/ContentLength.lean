import Xzero.Http.Http1.Prefixes
import Xzero.Http.Http1.Reading

/-!
# Content of an announced length

The parser takes the value of a `Content-Length` with `toInt`, which is a number of 32 bits with a
sign, and keeps it in a member that stands for "no length" when it is below zero. So **the content
is what was announced if and only if the length is below `2 ^ 31`** (`Parser.honours_iff`): a larger
one is taken modulo `2 ^ 32`, the message ends too early, and the rest of the content is read as the
next request.

A header block is what a new parser takes up to the line feed that ends it; its fields are those
that the parser reports.
-/

namespace Xzero.Http.Http1

open List Util Buffer

def contentLengthName : Bytes :=
  ascii ['C', 'o', 'n', 't', 'e', 'n', 't', '-', 'L', 'e', 'n', 'g', 't', 'h']

def transferEncodingName : Bytes :=
  ascii ['T', 'r', 'a', 'n', 's', 'f', 'e', 'r', '-', 'E', 'n', 'c', 'o', 'd', 'i', 'n', 'g']

def Event.length (n : BitVec 64) : Event → BitVec 64
  | .header name value =>
    if iequals name contentLengthName then (toInt value).signExtend 64 else n
  | _ => n

/-- What is reported before the headers are over. -/
def Event.isHead : Event → Bool
  | .requestBegin .. | .responseBegin .. | .messageBegin | .header .. => true
  | _ => false

namespace Event

variable {e : Event}

theorem ne_content_of_isHead (h : e.isHead = true) (c : Bytes) : e ≠ .content c := by
  rintro rfl
  cases h

theorem concatContents_content (c : Bytes) (es : List Event) :
    ∃ c' es', concatContents (.content c :: es) = .content c' :: es' := by
  show ∃ c' es', cons (.content c) (concatContents es) = .content c' :: es'
  rcases concatContents es with - | ⟨e, es'⟩
  · exact ⟨c, [], rfl⟩
  · cases e with
    | content c' => exact ⟨c ++ c', es', rfl⟩
    | _ => exact ⟨c, _, rfl⟩

theorem concatContents_cons_of_ne (he : ∀ c, e ≠ .content c) (es : List Event) :
    concatContents (e :: es) = e :: concatContents es := by
  cases e with
  | content c => exact absurd rfl (he c)
  | _ => rfl

variable {es : List Event}

theorem eq_nil_of_concatContents (h : concatContents es = []) : es = [] := by
  rcases es with - | ⟨e, es⟩
  · rfl
  · cases e with
    | content c =>
      obtain ⟨c', es', hc⟩ := concatContents_content c es
      exact absurd (hc.symm.trans h) (cons_ne_nil _ _)
    | _ => cases h

variable {es' : List Event}

theorem exists_of_upToContents_cons (he : ∀ c, e ≠ .content c)
    (h : upToContents.r es (e :: es')) : ∃ es₁, es = e :: es₁ ∧ upToContents.r es₁ es' := by
  change concatContents es = concatContents (e :: es') at h
  rw [concatContents_cons_of_ne he] at h
  rcases es with - | ⟨x, es⟩
  · exact absurd h.symm (cons_ne_nil _ _)
  · cases x with
    | content c =>
      obtain ⟨c', es'', hc⟩ := concatContents_content c es
      rw [hc] at h
      exact absurd (cons.inj h).1.symm (he c')
    | _ =>
      obtain ⟨rfl, htail⟩ := cons.inj h
      exact ⟨es, rfl, htail⟩

theorem exists_of_upToContents_append {es₀ : List Event}
    (he : ∀ e ∈ es₀, ∀ c, e ≠ .content c) (h : upToContents.r es (es₀ ++ es')) :
    ∃ es₁, es = es₀ ++ es₁ ∧ upToContents.r es₁ es' := by
  induction es₀ generalizing es with
  | nil => exact ⟨es, rfl, h⟩
  | cons e es₀ ih =>
    obtain ⟨he, hes₀⟩ := forall_mem_cons.1 he
    obtain ⟨es₁, rfl, h₁⟩ := exists_of_upToContents_cons he h
    obtain ⟨es₂, rfl, h₂⟩ := ih hes₀ h₁
    exact ⟨es₂, rfl, h₂⟩

theorem exists_of_upToContents_content {b : Bytes}
    (h : concatContents es = [.content b, .messageEnd] ∨
      b = [] ∧ concatContents es = [.messageEnd]) :
    ∃ cs : List Bytes, cs.flatten = b ∧ es = cs.map .content ++ [.messageEnd] := by
  induction es generalizing b with
  | nil => rcases h with h | ⟨-, h⟩ <;> cases h
  | cons e es ih =>
    change cons e (concatContents es) = _ ∨ _ ∧ cons e (concatContents es) = _ at h
    by_cases he : ∃ c, e = .content c
    · obtain ⟨c, rfl⟩ := he
      rcases hes : concatContents es with - | ⟨e', es'⟩
      · rw [hes] at h
        rcases h with h | ⟨-, h⟩ <;> cases h
      · -- What follows is content, or the end of the message.
        rw [hes] at h
        cases e' with
        | content c' =>
          rcases h with h | ⟨-, h⟩ <;> cases h
          obtain ⟨cs, rfl, rfl⟩ := ih (.inl hes)
          exact ⟨c :: cs, rfl, rfl⟩
        | messageEnd =>
          rcases h with h | ⟨-, h⟩ <;> cases h
          obtain ⟨cs, hcs, rfl⟩ := ih (.inr ⟨rfl, hes⟩)
          exact ⟨b :: cs, by rw [flatten_cons, hcs, append_nil], rfl⟩
        | _ => rcases h with h | ⟨-, h⟩ <;> cases h
    · push Not at he
      change concatContents (e :: es) = _ ∨ _ ∧ concatContents (e :: es) = _ at h
      rw [concatContents_cons_of_ne he] at h
      rcases h with h | ⟨rfl, h⟩
      · exact absurd (cons.inj h).1 (he b)
      · obtain ⟨rfl, htail⟩ := cons.inj h
        exact ⟨[], rfl, by rw [eq_nil_of_concatContents htail]; rfl⟩

theorem ne_of_notMem {e' : Event} {es₁ es₁' es₂ es₂' : List Event} (he' : e' ∉ es₁) (he : e ∉ es₁')
    (hne : e ≠ e') : es₁ ++ e :: es₂ ≠ es₁' ++ e' :: es₂' := by
  intro h
  rcases append_eq_append_iff.1 h with ⟨as, hleft, hright⟩ | ⟨as, hleft, hright⟩
  · rcases as with - | ⟨a, as⟩
    · exact hne (cons.inj hright).1
    · obtain ⟨rfl, -⟩ := cons.inj hright
      exact he (hleft ▸ mem_append_right _ mem_cons_self)
  · rcases as with - | ⟨a, as⟩
    · exact hne (cons.inj hright).1.symm
    · obtain ⟨rfl, -⟩ := cons.inj hright
      exact he' (hleft ▸ mem_append_right _ mem_cons_self)

theorem eq_of_map_content {cs cs' : List Bytes}
    (h : cs.map .content ++ .messageEnd :: es = cs'.map .content ++ .messageEnd :: es') :
    cs = cs' := by
  induction cs generalizing cs' with
  | nil =>
    rcases cs' with - | ⟨c', cs'⟩
    · rfl
    · cases (cons.inj h).1
  | cons c cs ih =>
    rcases cs' with - | ⟨c', cs'⟩
    · cases (cons.inj h).1
    · obtain ⟨hc, htail⟩ := cons.inj h
      rw [Event.content.inj hc, ih htail]

end Event

namespace Parser

section

variable {p p' p₁ : Parser} {data : Bytes} {pos k n : ℕ} {c : UInt8} {es : List Event}

/-! ### The length that the parser has -/

theorem acceptHeader_length (p : Parser) (name value : Bytes) :
    (p.acceptHeader name value).1.contentLength =
        (p.acceptHeader name value).2.foldl Event.length p.contentLength ∧
      ∀ e ∈ (p.acceptHeader name value).2, e.isHead = true := by
  rw [acceptHeader, ← contentLengthName]
  split
  · next hname => simp [Event.length, Event.isHead, hname]
  · next hname =>
    split
    · split
      · exact ⟨rfl, by simp⟩
      · simp [Event.length, Event.isHead, hname]
    · simp [Event.length, Event.isHead, hname]

theorem iterate_length (hs : p.state.hasContent = false) (hbegin : p.state ≠ .messageBegin)
    (hit : p.iterate data pos c = .next p' n es) (hs' : p'.state.hasContent = false) :
    (p'.contentLength = es.foldl Event.length p.contentLength ∧ ∀ e ∈ es, e.isHead = true) ∧
      p'.state ≠ .messageBegin := by
  have hlws : p.lwsNext.1 ≠ .messageBegin := by
    obtain ⟨s, h⟩ := p.lwsNext
    revert h
    cases s <;> decide
  have hlf : p.lwsNull.1 ≠ .messageBegin := by
    obtain ⟨s, h⟩ := p.lwsNull
    revert h
    cases s <;> decide
  revert hit hs'
  rcases hstate : p.state
  case messageBegin => exact absurd hstate hbegin
  case headerValueEnd =>
    simp only [iterate, hstate]
    rintro ⟨⟩ -
    exact ⟨acceptHeader_length p _ _, by simp⟩
  case lwsSpHtBegin =>
    simp only [iterate, hstate, nextChar]
    split
    · rintro ⟨⟩ -
      exact ⟨⟨rfl, forall_mem_nil _⟩, by simp⟩
    · rintro ⟨⟩ hs'
      have hnull : p.lwsNull.1 ≠ .protocolError := by
        intro hnull
        rw [hnull] at hs'
        cases hs'
      rw [if_neg hnull]
      exact ⟨⟨rfl, forall_mem_nil _⟩, hlf⟩
  all_goals first | (rw [hstate] at hs; cases hs; done) | skip
  all_goals
    simp only [iterate, hstate, expect, readMajor, readMinor, readStatusCode, nextChar, badRequest]
    repeat' split
    all_goals
      intro hit hs'
      cases hit
    all_goals
      first
      | (cases hs'; done)
      | exact ⟨⟨rfl, forall_mem_nil _⟩, hlws⟩
      | exact ⟨⟨rfl, forall_mem_nil _⟩, hbegin⟩
      | exact ⟨⟨rfl, forall_mem_nil _⟩, by simp⟩
      | exact ⟨⟨rfl, forall_mem_singleton.2 rfl⟩, by simp⟩

/-- **The length is what was reported**, up to the end of the headers. -/
theorem loop_length (hs : p.state.hasContent = false) (hbegin : p.state ≠ .messageBegin)
    (h : p.loop data pos = (es, .reached p₁ k)) (hp₁ : p₁.state.hasContent = false) :
    p₁.contentLength = es.foldl Event.length p.contentLength ∧ ∀ e ∈ es, e.isHead = true := by
  revert hs hbegin
  refine loop_reached_induction h ?_ fun _ _ _ ↦ ⟨rfl, forall_mem_nil _⟩
  intro p pos p' n es es' _ hit hrest _ ih hs hbegin
  have hs' := hasContent_eq_false hrest hp₁
  obtain ⟨⟨hlength, hhead⟩, hbegin'⟩ := iterate_length hs hbegin hit hs'
  obtain ⟨hlength₁, hhead₁⟩ := ih hs' hbegin'
  rw [foldl_append, ← hlength]
  exact ⟨hlength₁, forall_mem_append.2 ⟨hhead, hhead₁⟩⟩

theorem loop_append_of_reached {t : Bytes} (hv : p.Valid pos) (hpos : pos ≤ data.length)
    (h : p.loop data pos = (es, .reached p₁ data.length)) (hp₁ : p₁.state.hasContent = false) :
    p.loop (data ++ t) pos = (es ++ (p₁.loop (data ++ t) data.length).1,
      (p₁.loop (data ++ t) data.length).2) := by
  revert hv hpos
  refine loop_reached_induction h ?_ fun _ _ _ ↦ rfl
  intro p pos p' n es es' hlt hit _ hloop ih hv hpos
  have hbulk := isBulk_eq_false (hasContent_eq_false hloop hp₁)
  have hlt' := lt_append t hlt
  have hit' : p.iterate (data ++ t) pos (data ++ t)[pos] = .next p' n es := by
    rw [getElem_append_left hlt, iterate_append hv hpos hbulk, hit]
  obtain ⟨-, -, hvalid⟩ := iterate_next hit
  rw [loop_of_next hlt' hit', ih (hvalid hv) (add_le_of_next hlt hit), append_assoc]

/-! ### The value -/

def number (digits : Bytes) : ℕ := digits.foldl (fun n c ↦ n * 10 + (c.toNat - 48)) 0

theorem exists_digit_of_isDigit : ∀ c, isDigit c = true → ∃ d < 10, c = Numeral.digit d :=
  forall_uint8 (by decide +kernel)

theorem foldl_ofNat (w : Bytes) (m : ℕ) :
    w.foldl (fun v c ↦ v * 10 + BitVec.ofNat 32 (c.toNat - 48)) (BitVec.ofNat 32 m) =
      BitVec.ofNat 32 (w.foldl (fun n c ↦ n * 10 + (c.toNat - 48)) m) := by
  induction w generalizing m with
  | nil => rfl
  | cons c w ih =>
    rw [foldl_cons, foldl_cons, ← ih, BitVec.ofNat_add, BitVec.ofNat_mul]
    rfl

variable {value : Bytes}

theorem toInt_digits (hne : value ≠ []) (hdigits : ∀ c ∈ value, isDigit c = true) :
    toInt value = BitVec.ofNat 32 (number value) := by
  have hall : ∀ c ∈ value, ∃ d < 10, c = Numeral.digit d :=
    fun c hc ↦ exists_digit_of_isDigit c (hdigits c hc)
  rw [number, ← foldl_ofNat, ← toIntLoop_eq_foldl hall]
  exact toInt_eq_toIntLoop hne hall

/-- How much content the parser takes for a length. -/
def taken (n : ℕ) : ℕ := if n % 2 ^ 32 < 2 ^ 31 then n % 2 ^ 32 else 0

theorem taken_le (n : ℕ) : taken n ≤ n := by
  rw [taken]
  split
  · exact Nat.mod_le _ _
  · exact Nat.zero_le _

theorem taken_eq_iff (n : ℕ) : taken n = n ↔ n < 2 ^ 31 := by
  rw [taken]
  split <;> omega

theorem slt_signExtend (n : ℕ) :
    (0 : BitVec 64).slt ((BitVec.ofNat 32 n).signExtend 64) = decide (0 < taken n) ∧
      (0 < taken n → ((BitVec.ofNat 32 n).signExtend 64).toNat = taken n) := by
  have hint := toInt_signExtend n
  have hnat := BitVec.toInt_eq_toNat_cond ((BitVec.ofNat 32 n).signExtend 64)
  rw [hint] at hnat
  rw [BitVec.slt_eq_decide, hint, taken]
  by_cases hsmall : n % 2 ^ 32 < 2 ^ 31
  · rw [if_pos hsmall] at hnat ⊢
    rw [if_pos hsmall, decide_eq_decide]
    refine ⟨by simp; omega, fun _ ↦ ?_⟩
    split at hnat <;> omega
  · rw [if_neg hsmall, if_neg hsmall, decide_eq_decide]
    exact ⟨by simp; omega, fun h ↦ absurd h (lt_irrefl 0)⟩

/-! ### Requests with a length -/

def fields (es : List Event) : List (Bytes × Bytes) :=
  es.filterMap fun
    | .header name value => some (name, value)
    | _ => none

theorem fields_header (name value : Bytes) (es : List Event) :
    fields (.header name value :: es) = (name, value) :: fields es := rfl

/-- A request's header block with one `Content-Length`, which is a decimal number, and without
`Transfer-Encoding`. -/
structure Announces (block : Bytes) (head : List Event) (value : Bytes) : Prop where
  /-- A new parser takes it up to the line feed at its end, and has not been told of chunks. -/
  loop_eq : ∃ (front : Bytes) (p : Parser), block = front ++ [LF] ∧
    (init .request).loop front 0 = (head, .reached p front.length) ∧
    p.state = .headerEndLf ∧ p.chunked = false
  length_eq : ∃ name, (fields head).filter (fun field ↦ iequals field.1 contentLengthName) =
    [(name, value)]
  digits : value ≠ [] ∧ ∀ c ∈ value, isDigit c = true
  transferEncoding : ∀ field ∈ fields head, iequals field.1 transferEncodingName = false

theorem foldl_length (es : List Event) (m : BitVec 64) : es.foldl Event.length m =
    ((fields es).filter fun field ↦ iequals field.1 contentLengthName).foldl
      (fun _ field ↦ (toInt field.2).signExtend 64) m := by
  induction es generalizing m with
  | nil => rfl
  | cons e es ih =>
    rw [foldl_cons, ih]
    cases e with
    | header name value =>
      rw [fields_header, filter_cons, Event.length]
      split <;> rfl
    | _ => rfl

variable {block : Bytes} {head : List Event}

theorem Announces.exists_front (h : Announces block head value) :
    ∃ (front : Bytes) (p : Parser), block = front ++ [LF] ∧
      (∀ t, (init .request).loop (front ++ t) 0 = (head ++ (p.loop (front ++ t) front.length).1,
        (p.loop (front ++ t) front.length).2)) ∧
      p.state = .headerEndLf ∧ p.chunked = false ∧ p.mode = .request ∧
      p.contentLength = (BitVec.ofNat 32 (number value)).signExtend 64 ∧
      ∀ e ∈ head, e.isHead = true := by
  obtain ⟨front, p, hblock, hloop, hstate, hchunked⟩ := h.loop_eq
  obtain ⟨name, hname⟩ := h.length_eq
  have hp : p.state.hasContent = false := by rw [hstate]; rfl
  have hvalid := valid_init .request
  have hfront : 0 < front.length := by
    by_contra hfront
    rw [length_eq_zero_iff.1 (Nat.eq_zero_of_not_pos hfront), loop_of_le (Nat.le_refl 0)] at hloop
    cases hloop
    cases hstate
  -- After the first iteration the parser is at the beginning of the request line.
  have hbegin : (init .request).begin.loop front 0 = (head, .reached p front.length) :=
    (ready_init.loop_begin hfront).symm.trans hloop
  obtain ⟨hlength, hhead⟩ := loop_length rfl (by rintro ⟨⟩) hbegin hp
  have hsteps := loop_steps (init .request) front 0
  rw [hloop] at hsteps
  obtain ⟨hmode, -⟩ := steps_sound hsteps.1
  refine ⟨front, p, hblock, fun t ↦ loop_append_of_reached hvalid (Nat.zero_le _) hloop hp, hstate,
    hchunked, hmode, ?_, hhead⟩
  rw [hlength, foldl_length, hname, foldl_cons, foldl_nil, toInt_digits h.digits.1 h.digits.2]

variable {body : Bytes}

/-- **What the parser takes of a request with a length.** -/
theorem Announces.complete
    (h : Announces block head value) (hbody : taken (number value) ≤ body.length) :
    ∃ p, Complete (block ++ body.take (taken (number value)))
      (head ++ (.headerEnd :: (contentsOf (body.take (taken (number value))) ++ [.messageEnd]))) p := by
  obtain ⟨front, p, rfl, hloop, hstate, hchunked, hmode, hlength, -⟩ := h.exists_front
  obtain ⟨hslt, hnat⟩ := slt_signExtend (number value)
  rw [← hlength] at hslt hnat
  generalize taken (number value) = m at hbody hslt hnat
  have hexpected : p.isContentExpected = decide (0 < m) := by
    simp only [isContentExpected, hchunked, hmode, hslt, ne_eq, not_true_eq_false, decide_false,
      Bool.and_false, Bool.or_false]
  have hdrop : (front ++ [LF] ++ body.take m).drop front.length = LF :: body.take m := by
    rw [append_assoc, drop_left]
    rfl
  have hlen : (front ++ [LF] ++ body.take m).length = front.length + 1 + m := by
    rw [length_append, length_append, length_take, min_eq_left hbody]
    rfl
  have hwhole := hloop (LF :: body.take m)
  rw [show front ++ LF :: body.take m = front ++ [LF] ++ body.take m by
    rw [append_assoc]; rfl] at hwhole
  have hit : p.iterate (front ++ [LF] ++ body.take m) front.length LF = _ :=
    iterate_headerEndLf hstate
  rw [if_pos rfl, hexpected] at hit
  rcases Nat.eq_zero_or_pos m with rfl | hpos
  · rw [loop_of_drop_done hdrop hit] at hwhole
    exact ⟨_, by rw [hwhole, hlen]; rfl, rfl⟩
  · rw [if_pos (by simpa using hpos)] at hit
    have hnext := drop_of_cons hdrop
    obtain ⟨q, hq, hqstate⟩ := loop_contentBegin_of_slt (p := { p with state := .contentBegin }) rfl
      hchunked (hslt.trans (decide_eq_true hpos)) hnext
      ((hnat hpos).trans_le (by rw [length_take, min_eq_left hbody]))
    rw [(reads_of_next hdrop hit).loop_eq hq] at hwhole
    have hne : body.take m ≠ [] := by
      rw [← length_pos_iff, length_take]
      omega
    refine ⟨q, ?_, hqstate⟩
    rw [hwhole, contentsOf, if_neg hne, hlen]
    rw [hnat hpos, take_take, min_self]
    rfl

/-! ### What is delivered -/

/-- **What a length is for.** The next `n` bytes are delivered as content before the end of the
message, and the parser goes on behind them; or there is an error instead of the end of the message,
and no content. -/
def Honours (block body : Bytes) (head : List Event) (n : ℕ) (t : Trace Event (Parser × ℕ)) : Prop :=
  (∃ (cs : List Bytes) (q : Parser) (rest : Trace Event (Parser × ℕ)),
    cs.flatten = body.take n ∧ q.state = .messageBegin ∧
      GoesOn (block ++ body) (q, block.length + n) rest ∧
      t = (head ++ (.headerEnd :: (cs.map .content ++ .messageEnd :: rest.1)), rest.2)) ∨
    ∃ (before : List Event) (code : BitVec 32) (after : List Event),
      t.1 = before ++ .protocolError code :: after ∧ .messageEnd ∉ before ∧ ∀ c, .content c ∉ t.1

theorem Announces.parse_eq
    (h : Announces block head value) (hbody : taken (number value) ≤ body.length)
    {fragments : List Bytes} (hflat : fragments.flatten = block ++ body) :
    ∃ (cs : List Bytes) (q : Parser) (rest : Trace Event (Parser × ℕ)),
      cs.flatten = body.take (taken (number value)) ∧ q.state = .messageBegin ∧
        GoesOn (block ++ body) (q, block.length + taken (number value)) rest ∧
        parse .request fragments =
          (head ++ (.headerEnd :: (cs.map .content ++ .messageEnd :: rest.1)), rest.2) := by
  obtain ⟨q, hq⟩ := h.complete hbody
  obtain ⟨front, p, -, -, -, -, -, -, hhead⟩ := h.exists_front
  have hsplit : block ++ body = block ++ body.take (taken (number value)) ++
      body.drop (taken (number value)) := by
    rw [append_assoc, take_append_drop]
  obtain ⟨es, rest, hr, hgoes, hparse⟩ := hq.parse_eq_append (hflat.trans hsplit)
  obtain ⟨es₁, rfl, hr₁⟩ := Event.exists_of_upToContents_append
    (fun e he ↦ Event.ne_content_of_isHead (hhead e he)) hr
  obtain ⟨es₂, rfl, hr₂⟩ := Event.exists_of_upToContents_cons (e := .headerEnd) (fun _ h ↦ nomatch h) hr₁
  have hcontents : Event.concatContents es₂ = [.content (body.take (taken (number value))), .messageEnd] ∨
      body.take (taken (number value)) = [] ∧ Event.concatContents es₂ = [.messageEnd] := by
    rw [contentsOf] at hr₂
    split at hr₂
    · next hnil => exact Or.inr ⟨hnil, hr₂⟩
    · exact Or.inl hr₂
  obtain ⟨cs, hcs, rfl⟩ := Event.exists_of_upToContents_content hcontents
  refine ⟨cs, q, rest, hcs, hq.state_eq, ?_, ?_⟩
  · rw [hsplit]
    rwa [length_append, length_take, min_eq_left hbody] at hgoes
  · rw [hparse]
    simp

section

variable {block value body : Bytes} {head : List Event} (h : Announces block head value)
  (hbody : number value ≤ body.length) {fragments : List Bytes}
  (hflat : fragments.flatten = block ++ body)
include h hbody hflat

theorem Announces.honours (hlt : number value < 2 ^ 31) :
    Honours block body head (number value) (parse .request fragments) := by
  have htaken := (taken_eq_iff _).2 hlt
  obtain ⟨cs, q, rest, hcs, hq, hgoes, hparse⟩ := h.parse_eq ((taken_le _).trans hbody) hflat
  rw [htaken] at hcs hgoes
  exact .inl ⟨cs, q, rest, hcs, hq, hgoes, hparse⟩

theorem Announces.not_honours (hge : 2 ^ 31 ≤ number value) :
    ¬Honours block body head (number value) (parse .request fragments) := by
  obtain ⟨cs, q, rest, hcs, -, -, hparse⟩ := h.parse_eq ((taken_le _).trans hbody) hflat
  obtain ⟨-, -, -, -, -, -, -, -, hhead⟩ := h.exists_front
  rintro (⟨cs', q', rest', hcs', -, -, hparse'⟩ | ⟨before, code, after, hes, hend, -⟩)
  · have hes := (Prod.ext_iff.1 (hparse.symm.trans hparse')).1
    have hcontents := (cons.inj (append_cancel_left hes)).2
    obtain rfl := Event.eq_of_map_content hcontents
    have hlength := congrArg length (hcs.symm.trans hcs')
    rw [length_take, length_take, min_eq_left ((taken_le _).trans hbody),
      min_eq_left hbody, taken_eq_iff] at hlength
    exact absurd hlength (not_lt.2 hge)
  · -- The message ends before the error, if there is one.
    have heq : head ++ (.headerEnd :: cs.map .content) ++ .messageEnd :: rest.1 =
        before ++ .protocolError code :: after := by
      rw [append_assoc, ← hes, hparse]
      rfl
    have herror : .protocolError code ∉ head ++ .headerEnd :: cs.map .content := by
      intro hmem
      rcases mem_append.1 hmem with hmem | hmem
      · cases hhead _ hmem
      · obtain ⟨c, -, hc⟩ := mem_map.1 ((mem_cons.1 hmem).resolve_left nofun)
        cases hc
    exact absurd heq (Event.ne_of_notMem herror hend nofun)

/-- **Content of an announced length is delivered if and only if the length is below `2 ^ 31`.** -/
theorem honours_iff :
    Honours block body head (number value) (parse .request fragments) ↔ number value < 2 ^ 31 := by
  refine ⟨fun hhonours ↦ ?_, h.honours hbody hflat⟩
  by_contra hge
  exact h.not_honours hbody hflat (not_lt.1 hge) hhonours

end

/-- The loop comes to the end of headers with one length. -/
def reportsLength (front value : Bytes) : List Event × Exit → Bool
  | (head, .reached p k) =>
    k = front.length && p.state = .headerEndLf && !p.chunked &&
      ((fields head).filter fun field ↦ iequals field.1 contentLengthName) =
        [(contentLengthName, value)] &&
      (fields head).all fun field ↦ !iequals field.1 transferEncodingName
  | _ => false

theorem announces_of_loopFor (fuel : ℕ) {front : Bytes}
    (h : (loopFor fuel (init .request) front 0).any (reportsLength front value) = true)
    (hne : value ≠ []) (hdigits : ∀ c ∈ value, isDigit c = true) :
    ∃ head, Announces (front ++ [LF]) head value := by
  obtain ⟨⟨head, x⟩, hr, hx⟩ := Option.any_eq_true _ _ |>.1 h
  have hloop := loop_of_loopFor fuel hr
  obtain ⟨p, k⟩ | ⟨p, k⟩ | p := x
  · simp only [reportsLength, Bool.and_eq_true, decide_eq_true_eq, Bool.not_eq_true',
      all_eq_true] at hx
    obtain ⟨⟨⟨⟨rfl, hs⟩, hchunked⟩, hlength⟩, hother⟩ := hx
    exact ⟨head, ⟨front, p, rfl, hloop, hs, hchunked⟩, ⟨_, hlength⟩, ⟨hne, hdigits⟩, hother⟩
  · cases hx
  · cases hx

/-- A request with a length, up to the last line feed of its headers. -/
def postFront (value : Bytes) : Bytes :=
  ascii ['P', ' ', '/', ' ', 'H', 'T', 'T', 'P', '/', '1', '.', '1'] ++ [CR, LF] ++
    contentLengthName ++ ascii [':'] ++ value ++ [CR, LF, CR]

/-- One byte, in two fragments. -/
theorem honours_one : ∃ head, Announces (postFront (ascii ['1']) ++ [LF]) head (ascii ['1']) ∧
    Honours (postFront (ascii ['1']) ++ [LF]) (ascii ['x']) head 1
      (parse .request [postFront (ascii ['1']) ++ [LF], ascii ['x']]) := by
  have hex : ∃ head, Announces (postFront (ascii ['1']) ++ [LF]) head (ascii ['1']) :=
    announces_of_loopFor 60 (by decide +kernel) (by decide) (by decide +kernel)
  obtain ⟨head, h⟩ := hex
  exact ⟨head, h, (honours_iff h (by decide) rfl).2 (by decide)⟩

/-- `2 ^ 31`. -/
def large : Bytes := ascii ['2', '1', '4', '7', '4', '8', '3', '6', '4', '8']

theorem number_large : number large = 2 ^ 31 := by decide +kernel

/-- `2 ^ 31` bytes are announced, and none is delivered. -/
theorem not_honours_large : ¬∀ (block value body : Bytes) (head : List Event)
    (fragments : List Bytes), Announces block head value → number value ≤ body.length →
      fragments.flatten = block ++ body →
        Honours block body head (number value) (parse .request fragments) := by
  intro hall
  have hex : ∃ head, Announces (postFront large ++ [LF]) head large :=
    announces_of_loopFor 70 (by decide +kernel) (by decide) (by decide +kernel)
  obtain ⟨head, h⟩ := hex
  have hbody : number large ≤ (replicate (2 ^ 31) SP).length := by
    rw [length_replicate, number_large]
  have hflat : [postFront large ++ [LF] ++ replicate (2 ^ 31) SP].flatten =
      postFront large ++ [LF] ++ replicate (2 ^ 31) SP := append_nil _
  exact h.not_honours hbody hflat number_large.ge (hall _ _ _ _ _ h hbody hflat)

end

end Parser

end Xzero.Http.Http1
