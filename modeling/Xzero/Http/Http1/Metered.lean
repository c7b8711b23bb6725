import Xzero.Http.Http1.ContentLength
import Xzero.Http.Http1.Grammar

/-!
# How much content a request has

A listener can add up the content of a message and remember the length its headers have announced.
**For requests that are not chunked, it never gets more than was announced, and nothing where no
length was** (`Parser.within_parse`), whatever is received and in whatever fragments. The parser's
flag for chunked content is never cleared, so one look at the end of a run tells that no request was
chunked.
-/

namespace Xzero.Http.Http1

open Util BitVec

/-- What a listener can know of the content of a message. -/
structure Meter where
  /-- The length that its headers have announced. -/
  announced : BitVec 64
  got : ℕ
  deriving DecidableEq, Repr

namespace Meter

def start : Meter := ⟨-1, 0⟩

def next (m : Meter) : Event → Meter
  | .requestBegin .. | .responseBegin .. | .messageBegin => start
  | .content c => { m with got := m.got + c.length }
  | e => { m with announced := e.length m.announced }

/-- The length that counts: below zero there is none. -/
def limit (m : Meter) : ℕ := m.announced.toInt.toNat

/-- The content is not more than was announced, after every one of the events. -/
def Within (m : Meter) : List Event → Prop
  | [] => m.got ≤ m.limit
  | e :: es => m.got ≤ m.limit ∧ Within (m.next e) es

variable {m : Meter} {es : List Event}

theorem Within.got_le (h : m.Within es) : m.got ≤ m.limit := by
  cases es with
  | nil => exact h
  | cons e es => exact h.1

theorem Within.append {es' : List Event} (h : m.Within es)
    (h' : (es.foldl next m).Within es') : m.Within (es ++ es') := by
  induction es generalizing m with
  | nil => exact h'
  | cons e es ih => exact ⟨h.1, ih h.2 h'⟩

end Meter

/-- What a state is about, in a parser for requests. -/
inductive Part
  | idle | line | head | body | chunk | other
  deriving DecidableEq, Repr

/-- The part of a message that is read in a state. -/
def State.part : State → Part
  | .messageBegin | .protocolError | .unset => .idle
  | .requestLineBegin | .requestMethod | .requestEntityBegin | .requestEntity | .request09Lf
  | .requestProtocolBegin | .requestProtocolT1 | .requestProtocolT2 | .requestProtocolP
  | .requestProtocolSlash | .requestProtocolVersionMajor | .requestProtocolVersionMinor
  | .requestLineLf => .line
  | .headerNameBegin | .headerName | .headerColon | .lwsBegin | .lwsLf | .lwsSpHtBegin | .lwsSpHt
  | .headerValueBegin | .headerValue | .headerValueLf | .headerValueEnd | .headerEndLf => .head
  | .contentBegin | .content => .body
  | .contentChunkSizeBegin | .contentChunkSize | .contentChunkLf1 | .contentChunkBody
  | .contentChunkLf2 | .contentChunkCr3 | .contentChunkLf3 => .chunk
  | _ => .other

namespace Parser

/-- What the parser's length and the meter have to do with each other. -/
def Balance (m : Meter) (length : BitVec 64) : Part → Prop
  | .idle => True
  | .line => length = -1
  | .head => length = m.announced ∧ m.got = 0
  | .body => (0 : BitVec 64).slt length = true ∧ m.got + length.toNat = m.limit
  | .chunk | .other => False

/-- A parser for requests is in balance with the meter. -/
structure Metered (m : Meter) (p : Parser) : Prop where
  request : p.mode = .request
  got_le : m.got ≤ m.limit
  balance : Balance m p.contentLength p.state.part

section

variable {p p' : Parser} {m : Meter} {data : Bytes} {pos n : ℕ} {c : UInt8} {es : List Event}

theorem chunked_acceptHeader (hchunked : p.chunked = true) (name value : Bytes) :
    (p.acceptHeader name value).1.chunked = true := by
  rw [acceptHeader]
  split_ifs <;> first | exact hchunked | rfl

theorem chunked_after (hchunked : p.chunked = true) (data : Bytes) (pos : ℕ) (c : UInt8) :
    (p.iterate data pos c).after.chunked = true := by
  by_cases hs : p.state = .headerValueEnd
  · simp only [iterate, hs]
    exact chunked_acceptHeader hchunked _ _
  · exact (iterate_chunked hs).trans hchunked

theorem part_lws {s : State} (h : s.afterLws = true ∨ s.afterLf = true) :
    s.part = .head ∨ s.part = .idle := by
  revert h
  cases s <;> decide

/-- An iteration keeps a parser in balance, unless there are chunks. -/
def Keeps (m : Meter) : Iteration → Prop
  | .next p' _ es | .done p' _ es =>
    p'.chunked = false → m.Within es ∧ Metered (es.foldl Meter.next m) p'
  | .raise _ => True

section

variable (h : Metered m p)
include h

theorem Metered.balance_of {s : State} (hs : p.state = s) : Balance m p.contentLength s.part :=
  hs ▸ h.balance

theorem Metered.same (hmode : p'.mode = p.mode)
    (hlength : p'.contentLength = p.contentLength) (hpart : p'.state.part = p.state.part) :
    m.Within [] ∧ Metered m p' := by
  refine ⟨h.got_le, hmode.trans h.request, h.got_le, ?_⟩
  rw [hpart, hlength]
  exact h.balance

theorem Metered.idle (hmode : p'.mode = p.mode) (hpart : p'.state.part = .idle) :
    m.Within [] ∧ Metered m p' := by
  refine ⟨h.got_le, hmode.trans h.request, h.got_le, ?_⟩
  rw [hpart]
  trivial

theorem keeps_nextChar (hmode : p'.mode = p.mode)
    (hlength : p'.contentLength = p.contentLength) (hpart : p'.state.part = p.state.part) :
    Keeps m p'.nextChar := fun _ ↦ h.same hmode hlength hpart

theorem keeps_badRequest : Keeps m p.badRequest :=
  fun _ ↦ ⟨⟨h.got_le, h.got_le⟩, h.request, h.got_le, trivial⟩

variable {s : State}

theorem keeps_requestBegin (hs : p.state.part = .line) {method entity : Bytes}
    {version : HttpVersion} :
    Keeps m (.next { p with state := .headerNameBegin } 1 [.requestBegin method entity version]) :=
  fun _ ↦ by
    have hb := h.balance
    rw [hs] at hb
    exact ⟨⟨h.got_le, Nat.zero_le _⟩, h.request, Nat.zero_le _, hb, rfl⟩

theorem keeps_lws (hs : p.state.part = .head) (hs' : s.part = .head ∨ s.part = .idle) :
    m.Within [] ∧ Metered m { p with state := s } := by
  rcases hs' with hs' | hs'
  · exact h.same rfl rfl (hs'.trans hs.symm)
  · exact h.idle rfl hs'

theorem keeps_headerValueEnd (hs : p.state = .headerValueEnd) : Keeps m (p.iterate data pos c) := by
  simp only [iterate, hs]
  intro _
  obtain ⟨hlength, hgot⟩ := h.balance_of hs
  have hle : ∀ length : BitVec 64, m.got ≤ (Meter.mk length m.got).limit := fun length ↦ by
    rw [hgot]
    exact Nat.zero_le _
  have hfold : ∀ (name value : Bytes) (es : List Event), es = [] ∨ es = [.header name value] →
      es.foldl Meter.next m = ⟨es.foldl Event.length m.announced, m.got⟩ ∧ m.Within es := by
    rintro name value es (rfl | rfl)
    · exact ⟨rfl, h.got_le⟩
    · exact ⟨rfl, h.got_le, hle _⟩
  have hes : ∀ name value : Bytes, (p.acceptHeader name value).2 = [] ∨
      (p.acceptHeader name value).2 = [.header name value] := by
    intro name value
    rw [acceptHeader]
    split_ifs <;> first | exact .inl rfl | exact .inr rfl
  have hmode : ∀ name value : Bytes, (p.acceptHeader name value).1.mode = p.mode := by
    intro name value
    rw [acceptHeader]
    split_ifs <;> rfl
  obtain ⟨hmeter, hwithin⟩ := hfold _ _ _ (hes (p.name.bytes data) (p.value.bytes data))
  refine ⟨hwithin, (hmode _ _).trans h.request, ?_, ?_⟩
  · rw [hmeter]
    exact hle _
  · rw [hmeter, ← hlength]
    exact ⟨(acceptHeader_length p _ _).1, hgot⟩

end

variable {length : BitVec 64}

theorem toNat_of_slt (h : (0 : BitVec 64).slt length = true) :
    length.toNat = length.toInt.toNat ∧ 0 < length.toNat := by
  have hpos : 0 < length.toInt := of_decide_eq_true h
  rw [toInt_eq_toNat_cond] at hpos ⊢
  split_ifs at hpos ⊢ <;> omega

theorem slt_of_toNat (h : 0 < length.toNat) (hlt : length.toNat < 2 ^ 63) :
    (0 : BitVec 64).slt length = true := by
  show decide (0 < length.toInt) = true
  rw [decide_eq_true_iff, toInt_eq_toNat_cond, if_pos (by omega)]
  omega

section

variable (h : Metered m p)
include h

theorem keeps_headerEndLf (hs : p.state = .headerEndLf) : Keeps m (p.iterate data pos c) := by
  obtain ⟨hlength, hgot⟩ := h.balance_of hs
  rw [iterate_headerEndLf hs]
  split_ifs with hc hexpected
  · intro hchunked
    have hslt : (0 : BitVec 64).slt p.contentLength = true := by
      simpa [isContentExpected, show p.chunked = false from hchunked, h.request] using hexpected
    refine ⟨⟨h.got_le, h.got_le⟩, h.request, h.got_le, hslt, ?_⟩
    show m.got + p.contentLength.toNat = m.announced.toInt.toNat
    rw [hgot, Nat.zero_add, (toNat_of_slt hslt).1, hlength]
  · exact fun _ ↦ ⟨⟨h.got_le, h.got_le, h.got_le⟩, h.request, h.got_le, trivial⟩
  · exact keeps_badRequest h

theorem keeps_contentBegin (hs : p.state = .contentBegin) : Keeps m (p.iterate data pos c) := by
  have hb := h.balance_of hs
  have hneg : p.contentLength.slt 0 = false := by
    have hpos : 0 < p.contentLength.toInt := of_decide_eq_true hb.1
    exact decide_eq_false (show ¬p.contentLength.toInt < 0 by omega)
  simp only [iterate, hs, hneg, Bool.not_false, if_true]
  split_ifs with hchunked
  · exact fun hfalse ↦ absurd (hchunked.symm.trans hfalse) (by decide)
  · exact fun _ ↦ h.same rfl rfl (by rw [hs]; rfl)

theorem keeps_content (hs : p.state = .content) : Keeps m (p.iterate data pos c) := by
  obtain ⟨hslt, hsum⟩ := h.balance_of hs
  obtain ⟨hint, hpos⟩ := toNat_of_slt hslt
  simp only [iterate, hs]
  generalize hk : min p.contentLength.toNat (data.length - pos) = k
  have hlen : ((data.drop pos).take k).length = k := by
    rw [List.length_take, List.length_drop]
    omega
  have hlt : p.contentLength.toNat < 2 ^ 63 := by
    rw [toInt_eq_toNat_cond] at hint
    split_ifs at hint <;> omega
  have hsub : (p.contentLength - BitVec.ofNat 64 k).toNat = p.contentLength.toNat - k := by
    rw [toNat_sub_of_le] <;> simp only [le_def, toNat_ofNat] <;> omega
  have hle : m.got + ((data.drop pos).take k).length ≤ m.limit := by omega
  split_ifs with hzero
  · exact fun _ ↦ ⟨⟨h.got_le, hle, hle⟩, h.request, hle, trivial⟩
  · refine fun _ ↦ ⟨⟨h.got_le, hle⟩, h.request, hle, ?_⟩
    have hne : (p.contentLength - BitVec.ofNat 64 k).toNat ≠ 0 :=
      fun h0 ↦ hzero (eq_of_toNat_eq h0)
    show (0 : BitVec 64).slt (p.contentLength - BitVec.ofNat 64 k) = true ∧
      m.got + ((data.drop pos).take k).length + (p.contentLength - BitVec.ofNat 64 k).toNat = m.limit
    exact ⟨slt_of_toNat (by omega) (by omega), by omega⟩

/-- **An iteration keeps the parser in balance.** -/
theorem iterate_keeps (data : Bytes) (pos : ℕ) (c : UInt8) : Keeps m (p.iterate data pos c) := by
  have hb := h.balance
  rcases hs : p.state
  case headerValueEnd => exact keeps_headerValueEnd h hs
  case headerEndLf => exact keeps_headerEndLf h hs
  case contentBegin => exact keeps_contentBegin h hs
  case content => exact keeps_content h hs
  case messageBegin =>
    simp only [iterate, hs, h.request]
    exact fun _ ↦ ⟨h.got_le, rfl, h.got_le, rfl⟩
  all_goals
    have hpart := congrArg State.part hs
    rw [hs] at hb
    simp only [iterate, hs, expect, readMajor, readMinor]
  case request09Lf =>
    split_ifs
    · exact fun _ ↦ ⟨⟨h.got_le, Nat.zero_le _, Nat.zero_le _, Nat.zero_le _⟩, h.request,
        Nat.zero_le _, hs ▸ hb⟩
    · exact keeps_badRequest h
  case requestLineLf =>
    split_ifs
    · split
      · trivial
      · exact keeps_requestBegin h hpart
    · exact keeps_badRequest h
  case lwsSpHtBegin =>
    by_cases hc : c = SP ∨ c = HT
    · rw [if_pos hc]
      exact keeps_nextChar h rfl rfl hpart.symm
    · obtain ⟨-, hkeeps⟩ := keeps_lws h hpart (part_lws (.inr p.lwsNull.2))
      split_ifs
      · exact fun _ ↦ ⟨⟨h.got_le, h.got_le⟩, hkeeps⟩
      · exact fun _ ↦ ⟨h.got_le, hkeeps⟩
  -- The other states are not those of a request, take a byte, end white space or report an error.
  all_goals
    repeat' split
    all_goals
      first
      | exact hb.elim
      | exact keeps_badRequest h
      | exact keeps_nextChar h rfl rfl hpart.symm
      | exact fun _ ↦ keeps_lws h hpart (part_lws (.inl p.lwsNext.2))
      | exact fun _ ↦ h.same rfl rfl rfl

end

/-! ### Runs -/

/-- From one parser to another with these events: chunks are not forgotten, and without them the
parser stays in balance. -/
structure Meters (p : Parser) (es : List Event) (p' : Parser) : Prop where
  chunked : p.chunked = true → p'.chunked = true
  keeps : ∀ {m : Meter}, Metered m p → p'.chunked = false →
    m.Within es ∧ Metered (es.foldl Meter.next m) p'

theorem Meters.refl (p : Parser) : Meters p [] p := ⟨id, fun h _ ↦ ⟨h.got_le, h⟩⟩

theorem Meters.trans {p'' : Parser} {es' : List Event} (h : Meters p es p')
    (h' : Meters p' es' p'') : Meters p (es ++ es') p'' := by
  refine ⟨h'.chunked ∘ h.chunked, fun hm hchunked ↦ ?_⟩
  have hp' : p'.chunked = false := by
    by_contra hne
    rw [h'.chunked (Bool.not_eq_false _ ▸ hne)] at hchunked
    cases hchunked
  obtain ⟨hwithin, hm'⟩ := h.keeps hm hp'
  obtain ⟨hwithin', hm''⟩ := h'.keeps hm' hchunked
  exact ⟨hwithin.append hwithin', by rwa [List.foldl_append]⟩

theorem meters_iterate (hit : p.iterate data pos c = .next p' n es ∨
    p.iterate data pos c = .done p' n es) : Meters p es p' := by
  have hchunked (h : p.chunked = true) := chunked_after h data pos c
  have hkeeps {m : Meter} (h : Metered m p) := iterate_keeps h data pos c
  rcases hit with hit | hit <;> rw [hit] at hchunked hkeeps <;> exact ⟨hchunked, hkeeps⟩

theorem meters_loop (data : Bytes) (pos : ℕ) : ∀ p' pos',
    (p.loop data pos).2 = .reached p' pos' ∨ (p.loop data pos).2 = .done p' pos' →
      Meters p (p.loop data pos).1 p' := by
  fun_induction loop p data pos with
  | case1 p pos hpos p' n es' hit r ih =>
    exact fun p₁ pos₁ h ↦ (meters_iterate (.inl hit)).trans (ih p₁ pos₁ h)
  | case2 p pos hpos p' n es' hit =>
    rintro p₁ pos₁ (heq | heq) <;> cases heq
    exact meters_iterate (.inr hit)
  | case3 p pos hpos p' hit => rintro p₁ pos₁ (heq | heq) <;> cases heq
  | case4 p pos hpos =>
    rintro p₁ pos₁ (heq | heq) <;> cases heq
    exact .refl p

theorem meters_call (hcall : p.call data pos = (es, some p')) : Meters p es p' := by
  have hloop := @meters_loop p data pos
  rw [call, parseFragment] at hcall
  generalize p.loop data pos = r at hloop hcall
  obtain ⟨es', ⟨p₁, pos₁⟩ | ⟨p₁, pos₁⟩ | p₁⟩ := r
  · simp only at hcall
    split_ifs at hcall with hend
    · cases hcall
      have h := hloop p₁ pos₁ (.inl rfl)
      -- A length below zero is not expected content in a request.
      refine ⟨h.chunked, fun hm hchunked ↦ ?_⟩
      have hb := (h.keeps hm hchunked).2.balance
      rw [hend.1] at hb
      have hpos : 0 < p₁.contentLength.toInt := of_decide_eq_true hb.1
      have hneg : p₁.contentLength.toInt < 0 := of_decide_eq_true hend.2.1
      omega
    · cases hcall
      exact hloop p' pos₁ (.inl rfl)
  · cases hcall
    exact hloop p' pos₁ (.inr rfl)
  · cases hcall

theorem meters_calls {cs : List (Bytes × ℕ)} (hcalls : p.calls cs = (es, some p')) :
    Meters p es p' := by
  induction cs generalizing p es with
  | nil =>
    cases hcalls
    exact .refl _
  | cons c cs ih =>
    obtain ⟨es₁, p₁, es₂, hcall, hrest, rfl⟩ := Trace.bind_eq_some hcalls
    exact (meters_call hcall).trans (ih hrest)

/-- **Whatever is received, and in whatever fragments: if no request was chunked, no request has
more content than its headers have announced.** -/
theorem within_parse {fragments : List Bytes} {s : Parser × ℕ}
    (h : parse .request fragments = (es, some s)) (hchunked : s.1.chunked = false) :
    Meter.start.Within es := by
  obtain ⟨cs, hcs⟩ := parse_calls .request fragments
  rw [h] at hcs
  have hinit : Metered Meter.start (init .request) := ⟨rfl, Nat.zero_le _, trivial⟩
  exact ((meters_calls hcs).keeps hinit hchunked).1

end

end Parser

end Xzero.Http.Http1
