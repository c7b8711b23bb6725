import Xzero.Http.Http1.Parser

/-!
# What the HTTP/1 parser keeps to

What every iteration of the parser's loop keeps, whatever it is fed with: the place of the
references (`Parser.Valid`), and **the order of the events** (`Phase`), which is given by the state.
-/

namespace Xzero.Http.Http1

open Util State

/-- Where in a sequence of messages the events have got to. -/
inductive Phase
  | idle
  | headers
  | contents
  | failed
  deriving DecidableEq, Repr

namespace Phase

/-- The phase after an event that may come next. -/
def next : Phase → Event → Option Phase
  | idle, .requestBegin .. | idle, .responseBegin .. | idle, .messageBegin => some headers
  | headers, .header .. => some headers
  | headers, .headerEnd => some contents
  | contents, .content _ => some contents
  | contents, .messageEnd => some idle
  | failed, _ => none
  | _, .protocolError _ => some failed
  | _, _ => none

/-- The phase after events that may come next. -/
def run (φ : Phase) : List Event → Option Phase
  | [] => some φ
  | e :: es => (φ.next e).bind fun φ' ↦ φ'.run es

theorem run_append {φ : Phase} {es es' : List Event} :
    φ.run (es ++ es') = (φ.run es).bind fun φ' ↦ φ'.run es' := by
  induction es generalizing φ with
  | nil => rfl
  | cons e es ih =>
    rw [List.cons_append, run, run]
    rcases φ.next e with - | φ'
    · rfl
    · exact ih

end Phase

def State.phase : State → Phase
  | protocolError => .failed
  | messageBegin
  | requestLineBegin | requestMethod | requestEntityBegin | requestEntity
  | requestProtocolBegin | requestProtocolT1 | requestProtocolT2 | requestProtocolP
  | requestProtocolSlash | requestProtocolVersionMajor | requestProtocolVersionMinor
  | requestLineLf | request09Lf
  | statusLineBegin | statusProtocolBegin | statusProtocolT1 | statusProtocolT2 | statusProtocolP
  | statusProtocolSlash | statusProtocolVersionMajor | statusProtocolVersionMinor
  | statusCodeBegin | statusCode | statusMessageBegin | statusMessage | statusMessageLf => .idle
  | unset | headerNameBegin | headerName | headerColon | headerValueBegin | headerValue
  | headerValueLf | headerValueEnd | headerEndLf | lwsBegin | lwsLf | lwsSpHtBegin | lwsSpHt => .headers
  | _ => .contents

/-- The bytes since the end of a value that may still become a part of it. -/
def State.slack : State → ℕ
  | lwsLf => 1
  | lwsSpHtBegin => 2
  | _ => 0

/-- No value goes on, and nothing is said of contents to come. -/
def State.isPlain (s : State) : Bool := s.slack = 0 && s ≠ .contentBegin && s ≠ .content

/-- A byte may lead from one state to the other, with no event. -/
def State.leadsTo (s s' : State) : Bool :=
  s'.phase = s.phase && s'.slack ≤ s.slack + 1 && s' ≠ .contentBegin && s' ≠ .content

theorem State.leadsTo_iff {s s' : State} : s.leadsTo s' = true ↔ s'.phase = s.phase ∧
    s'.slack ≤ s.slack + 1 ∧ s' ≠ .contentBegin ∧ s' ≠ .content := by
  simp [leadsTo, and_assoc]

def Ref.stop (r : Ref) : ℕ := r.offset + r.size

namespace Parser

/-- References are to bytes that were taken, and content that is waited for is there to come. -/
def Valid (p : Parser) (pos : ℕ) : Prop :=
  p.method.stop ≤ pos ∧ p.entity.stop ≤ pos ∧ p.message.stop ≤ pos ∧ p.name.stop ≤ pos ∧
    p.value.stop + p.state.slack ≤ pos ∧ (p.state = .contentBegin → p.isContentExpected = true) ∧
    (p.state = .content → p.contentLength ≠ 0)

def Sound (p : Parser) (pos : ℕ) : Iteration → Prop
  | .next p' n es => p'.mode = p.mode ∧ p.state.phase.run es = some p'.state.phase ∧
    (p.Valid pos → p'.Valid (pos + n))
  | .done p' n es => (p'.mode = p.mode ∧ p.state.phase.run es = some p'.state.phase ∧
    (p.Valid pos → p'.Valid (pos + n))) ∧
    ((p' = p ∧ n = 0 ∧ es = []) ∨ ((∃ es', es = es' ++ [.messageEnd]) ∧
      (p.state = .request09Lf ∨ p.state = .content ∨ 0 < n)))
  | .raise _ => True

section

variable {p p' : Parser} {data : Bytes} {pos n : ℕ} {c : UInt8} {es : List Event}

/-- The parsers have the same references. -/
def SameRefs (p p' : Parser) : Prop :=
  p'.method = p.method ∧ p'.entity = p.entity ∧ p'.message = p.message ∧ p'.name = p.name ∧
    p'.value = p.value

section

variable (hv : p.Valid pos)
include hv

theorem Valid.of_sameRefs (hrefs : p.SameRefs p')
    (hslack : p'.state.slack ≤ p.state.slack + n)
    (hbegin : p'.state = .contentBegin → p'.isContentExpected = true)
    (hcontent : p'.state = .content → p'.contentLength ≠ 0) : p'.Valid (pos + n) := by
  obtain ⟨hmethod, hentity, hmessage, hname, hvalue, -⟩ := hv
  obtain ⟨h₁, h₂, h₃, h₄, h₅⟩ := hrefs
  rw [Valid, h₁, h₂, h₃, h₄, h₅]
  exact ⟨by omega, by omega, by omega, by omega, by omega, hbegin, hcontent⟩

theorem Valid.moves (hrefs : p.SameRefs p') (hs : p'.state.isPlain = true) : p'.Valid (pos + n) := by
  simp only [State.isPlain, Bool.and_eq_true, decide_eq_true_eq] at hs
  obtain ⟨⟨hslack, hbegin⟩, hcontent⟩ := hs
  exact hv.of_sameRefs hrefs (by omega) (absurd · hbegin) (absurd · hcontent)

theorem Valid.mono (hn : pos ≤ n) : p.Valid n := by
  obtain ⟨hmethod, hentity, hmessage, hname, hvalue, hrest⟩ := hv
  exact ⟨hmethod.trans hn, hentity.trans hn, hmessage.trans hn, hname.trans hn, hvalue.trans hn, hrest⟩

end

/-- Where a byte was taken, a reference is as it was, or it has got this byte. -/
def Grows (pos : ℕ) (r r' : Ref) : Prop := r' = r ∨ r' = ⟨pos, 1⟩ ∨ r' = r.shr 1

theorem Grows.stop_le {r r' : Ref} (h : Grows pos r r') (hr : r.stop ≤ pos) : r'.stop ≤ pos + 1 := by
  rcases h with rfl | rfl | rfl
  · exact hr.trans (Nat.le_succ pos)
  · exact le_rfl
  · exact Nat.succ_le_succ hr

/-- A value also gets the bytes since its end. -/
def Takes (p : Parser) (pos : ℕ) (p' : Parser) : Prop :=
  Grows pos p.method p'.method ∧ Grows pos p.entity p'.entity ∧ Grows pos p.message p'.message ∧
    Grows pos p.name p'.name ∧ (p'.value = p.value ∨ p'.state.slack = 0 ∧
      (p'.value = ⟨pos, 1⟩ ∨ p'.value = p.value.shr (p.state.slack + 1)))

theorem sound_nextChar (hmode : p'.mode = p.mode) (hs : p.state.leadsTo p'.state = true)
    (htakes : p.Takes pos p') : p.Sound pos p'.nextChar := by
  obtain ⟨hφ, hslack, hbegin, hcontent⟩ := leadsTo_iff.1 hs
  obtain ⟨h₁, h₂, h₃, h₄, h₅⟩ := htakes
  refine ⟨hmode, by rw [hφ]; rfl, ?_⟩
  rintro ⟨hmethod, hentity, hmessage, hname, hvalue, -⟩
  refine ⟨h₁.stop_le hmethod, h₂.stop_le hentity, h₃.stop_le hmessage, h₄.stop_le hname, ?_,
    (absurd · hbegin), (absurd · hcontent)⟩
  rcases h₅ with h₅ | ⟨hzero, h₅ | h₅⟩
  · rw [h₅]
    omega
  · rw [h₅, hzero]
    exact le_rfl
  · rw [h₅, hzero]
    change p.value.offset + (p.value.size + (p.state.slack + 1)) ≤ pos + 1
    change p.value.offset + p.value.size + p.state.slack ≤ pos at hvalue
    omega

theorem sound_badRequest (hp : p.state.phase ≠ .failed) (hmode : p'.mode = p.mode)
    (hrefs : p.SameRefs p') : p.Sound pos p'.badRequest := by
  refine ⟨hmode, ?_, fun hv ↦ hv.moves hrefs rfl⟩
  rcases hφ : p.state.phase with - | - | - | -
  · rfl
  · rfl
  · rfl
  · exact absurd hφ hp

theorem sound_ite {b : Prop} [Decidable b] {i i' : Iteration} (hi : p.Sound pos i)
    (hi' : p.Sound pos i') : p.Sound pos (if b then i else i') := by
  split
  · exact hi
  · exact hi'

theorem acceptHeader_eq (name value : Bytes) : ∃ length chunked es,
    p.acceptHeader name value = ({ p with contentLength := length, chunked := chunked }, es) ∧
      Phase.headers.run es = some .headers := by
  rw [acceptHeader]
  split
  · exact ⟨_, p.chunked, _, rfl, rfl⟩
  split
  · split
    · exact ⟨p.contentLength, true, _, rfl, rfl⟩
    · exact ⟨p.contentLength, p.chunked, _, rfl, rfl⟩
  · exact ⟨p.contentLength, p.chunked, _, rfl, rfl⟩

theorem phase_of_afterLws {s : State} (h : s.afterLws = true) :
    s.phase = .headers ∧ s.isPlain = true := by
  revert h
  cases s <;> decide

theorem phase_of_afterLf {s : State} (h : s.afterLf = true) :
    Phase.headers.run (if s = .protocolError then [.protocolError 400] else []) = some s.phase ∧
      s.isPlain = true := by
  revert h
  cases s <;> decide

theorem sound_lwsNext (hp : p.state.phase = .headers) :
    p.Sound pos (.next { p with state := p.lwsNext } 0 []) := by
  obtain ⟨hφ, hplain⟩ := phase_of_afterLws p.lwsNext.2
  refine ⟨rfl, ?_, fun hv ↦ hv.moves ⟨rfl, rfl, rfl, rfl, rfl⟩ hplain⟩
  rw [hp, hφ]
  rfl

theorem sound_lwsNull (hp : p.state.phase = .headers) :
    p.Sound pos (.next { p with state := p.lwsNull } 0
      (if p.lwsNull.1 = .protocolError then [.protocolError 400] else [])) := by
  obtain ⟨hφ, hplain⟩ := phase_of_afterLf p.lwsNull.2
  refine ⟨rfl, ?_, fun hv ↦ hv.moves ⟨rfl, rfl, rfl, rfl, rfl⟩ hplain⟩
  rw [hp, hφ]

theorem iterate_sound : p.Sound pos (p.iterate data pos c) := by
  rcases hs : p.state
  all_goals
    have hlead {s : State} (h : leadsTo _ s = true) : p.state.leadsTo s = true :=
      (congrArg (leadsTo · s) hs).trans h
    have hφ : p.state.phase = phase _ := congrArg phase hs
    simp only [iterate, hs, expect, readMajor, readMinor, readStatusCode, readChunkSize, readDigit]
  case unset | protocolError => exact ⟨⟨rfl, rfl, fun hv ↦ hv⟩, .inl ⟨rfl, rfl, rfl⟩⟩
  all_goals
    have hok : p.state.phase ≠ .failed := by rw [hφ]; decide
    have hbad : p.Sound pos p.badRequest := sound_badRequest hok rfl ⟨rfl, rfl, rfl, rfl, rfl⟩
    have hnext {p' : Parser} (hmode : p'.mode = p.mode) (h : leadsTo _ p'.state = true)
        (htakes : p.Takes pos p') : p.Sound pos p'.nextChar := sound_nextChar hmode (hlead h) htakes
  case messageBegin =>
    rcases hmode : p.mode with - | - | -
    all_goals
      refine ⟨hmode.symm, hφ ▸ rfl, fun hv ↦ ?_⟩
      exact hv.moves ⟨rfl, rfl, rfl, rfl, rfl⟩ rfl
  case requestLineLf | statusMessageLf =>
    refine sound_ite ?_ hbad
    rcases makeVersion p.versionMajor p.versionMinor with - | - | - | -
    · trivial
    all_goals
      refine ⟨rfl, hφ ▸ rfl, fun hv ↦ ?_⟩
      exact hv.moves ⟨rfl, rfl, rfl, rfl, rfl⟩ rfl
  case headerValueEnd =>
    obtain ⟨length, chunked, es, heq, hrun⟩ := p.acceptHeader_eq (p.name.bytes data) (p.value.bytes data)
    rw [heq]
    refine ⟨rfl, by rw [hφ]; exact hrun, fun hv ↦ ?_⟩
    obtain ⟨hmethod, hentity, hmessage, hname, hvalue, -⟩ := hv
    exact ⟨hmethod, hentity, hmessage, (Nat.le_add_right _ _).trans hname,
      (Nat.le_add_right _ _).trans ((Nat.le_add_right _ _).trans hvalue), by simp, by simp⟩
  case headerEndLf =>
    refine sound_ite ?_ hbad
    split
    · next hexpected =>
      refine ⟨rfl, hφ ▸ rfl, fun hv ↦ ?_⟩
      exact hv.of_sameRefs ⟨rfl, rfl, rfl, rfl, rfl⟩ (Nat.zero_le _) (fun _ ↦ hexpected) (by simp)
    · refine ⟨⟨rfl, hφ ▸ rfl, fun hv ↦ ?_⟩,
        .inr ⟨⟨[_], rfl⟩, .inr (.inr one_pos)⟩⟩
      exact hv.moves ⟨rfl, rfl, rfl, rfl, rfl⟩ rfl
  case contentBegin =>
    split
    · exact ⟨rfl, hφ ▸ rfl, fun hv ↦ hv.moves ⟨rfl, rfl, rfl, rfl, rfl⟩ rfl⟩
    · next hchunked =>
      split
      · next hslt =>
        refine ⟨rfl, hφ ▸ rfl, fun hv ↦ ?_⟩
        have hexpected := hv.2.2.2.2.2.1 hs
        refine hv.of_sameRefs ⟨rfl, rfl, rfl, rfl, rfl⟩ (Nat.zero_le _) (by simp) fun _ hzero ↦ ?_
        change p.contentLength = 0 at hzero
        simp [isContentExpected, hchunked, hzero] at hexpected
      · exact ⟨rfl, hφ ▸ rfl, fun hv ↦ hv.moves ⟨rfl, rfl, rfl, rfl, rfl⟩ rfl⟩
  case contentEndless =>
    refine ⟨rfl, ?_, fun hv ↦ hv.mono (Nat.le_add_right _ _)⟩
    rw [hφ]
    rfl
  case content =>
    split
    · refine ⟨⟨rfl, hφ ▸ rfl, fun hv ↦ ?_⟩, .inr ⟨⟨[_], rfl⟩, .inr (.inl hs)⟩⟩
      exact hv.moves ⟨rfl, rfl, rfl, rfl, rfl⟩ rfl
    · next hne =>
      refine ⟨rfl, by rw [hφ]; rfl, fun hv ↦ ?_⟩
      exact hv.of_sameRefs ⟨rfl, rfl, rfl, rfl, rfl⟩ (Nat.zero_le _) (by simp) fun _ ↦ hne
  case contentChunkBody =>
    split
    · refine ⟨rfl, by rw [hφ]; rfl, fun hv ↦ ?_⟩
      exact hv.moves ⟨rfl, rfl, rfl, rfl, rfl⟩ rfl
    · exact sound_ite (hnext rfl rfl (by simp [Takes, Grows])) hbad
  case contentChunkLf1 =>
    refine sound_ite (hnext rfl ?_ (by simp [Takes, Grows])) hbad
    dsimp only
    split <;> rfl
  case contentChunkLf3 =>
    refine sound_ite hbad
      ⟨⟨rfl, hφ ▸ rfl, fun hv ↦ ?_⟩, .inr ⟨⟨[], rfl⟩, .inr (.inr one_pos)⟩⟩
    exact hv.moves ⟨rfl, rfl, rfl, rfl, rfl⟩ rfl
  case request09Lf =>
    refine sound_ite ⟨⟨rfl, ?_, fun hv ↦ hv⟩, .inr ⟨⟨[_, _], rfl⟩, .inl hs⟩⟩ hbad
    rw [hφ]
    rfl
  case lwsBegin =>
    exact sound_ite (hnext rfl rfl (by simp [Takes, Grows])) (sound_ite
      (hnext rfl rfl (by simp [Takes, Grows])) (sound_ite (sound_lwsNext hφ) hbad))
  case lwsSpHtBegin | lwsSpHt =>
    refine sound_ite (hnext rfl rfl ?_) (by first | exact sound_lwsNull hφ | exact sound_lwsNext hφ)
    split <;> simp [Takes, Grows, slack, hs]
  -- The other states take a byte or report an error.
  all_goals
    repeat' first | exact sound_badRequest hok rfl ⟨rfl, rfl, rfl, rfl, rfl⟩ | apply sound_ite
    all_goals exact hnext rfl rfl (by simp [Takes, Grows, slack, hs])

theorem iterate_next (h : p.iterate data pos c = .next p' n es) : p'.mode = p.mode ∧
    p.state.phase.run es = some p'.state.phase ∧ (p.Valid pos → p'.Valid (pos + n)) := by
  have hsound : p.Sound pos (p.iterate data pos c) := iterate_sound
  rwa [h] at hsound

theorem iterate_done (h : p.iterate data pos c = .done p' n es) : p'.mode = p.mode ∧
    p.state.phase.run es = some p'.state.phase ∧ (p.Valid pos → p'.Valid (pos + n)) := by
  have hsound : p.Sound pos (p.iterate data pos c) := iterate_sound
  rw [h] at hsound
  exact hsound.1

theorem iterate_done_last (h : p.iterate data pos c = .done p' n es) :
    (p' = p ∧ n = 0 ∧ es = []) ∨ ∃ es', es = es' ++ [.messageEnd] := by
  have hsound : p.Sound pos (p.iterate data pos c) := iterate_sound
  rw [h] at hsound
  exact hsound.2.imp id And.left

/-- The last iteration takes bytes or does nothing, except for a request without a version. -/
theorem iterate_done_cases (hpos : pos < data.length) (hv : p.Valid pos)
    (hlf : ¬(p.state = .request09Lf ∧ c = LF)) (h : p.iterate data pos c = .done p' n es) :
    0 < n ∨ (p' = p ∧ n = 0 ∧ es = []) := by
  have hsound : p.Sound pos (p.iterate data pos c) := iterate_sound
  rw [h] at hsound
  rcases hsound.2 with hrest | ⟨-, hs | hs | hn⟩
  · exact .inr hrest
  · have hc : c ≠ LF := fun hc ↦ hlf ⟨hs, hc⟩
    simp only [iterate, hs, if_neg hc, badRequest] at h
    cases h
  · left
    have hlength : p.contentLength ≠ 0 := hv.2.2.2.2.2.2 hs
    have hmin := min_pos_of_ne_zero (Nat.sub_pos_of_lt hpos) hlength
    simp only [iterate, hs] at h
    split at h
    · cases h
      exact hmin
    · cases h
  · exact .inl hn

end

end Parser

end Xzero.Http.Http1
