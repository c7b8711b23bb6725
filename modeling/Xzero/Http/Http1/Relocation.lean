import Xzero.Http.Http1.Response

/-!
# Messages at another place

A parser refers to the bytes it has taken by their position. A message that stands behind others in
a buffer is taken as it would be on its own: **the loop makes the same iterations, with all
positions moved** (`Parser.loop_relocates`). What a parser has left from messages before is not
looked at, with one exception: that they came in chunks.
-/

namespace Xzero.Http.Http1

open List Util State Bool Ref

/-- The same bytes, behind `k` others. -/
def Ref.shift (r : Ref) (k : ℕ) : Ref := { r with offset := r.offset + k }

theorem Ref.bytes_shift {r : Ref} {data : Bytes} (h : r.stop ≤ data.length) (pre t : Bytes) :
    (r.shift pre.length).bytes (pre ++ data ++ t) = r.bytes data := by
  rw [← bytes_append h t, append_assoc, bytes, bytes, shift, add_comm, ← drop_drop, drop_left]

/-- The references of a parser that are set before they are used. -/
inductive Slot
  | method
  | entity
  | name

/-- In the status line of a response. -/
def State.isStatus : State → Bool
  | statusLineBegin | statusProtocolBegin | statusProtocolT1 | statusProtocolT2 | statusProtocolP
  | statusProtocolSlash | statusProtocolVersionMajor | statusProtocolVersionMinor
  | statusCodeBegin | statusCode | statusMessageBegin | statusMessage | statusMessageLf => true
  | _ => false

def State.live : State → Slot → Bool
  | messageBegin, _ | requestLineBegin, _ => false
  | requestMethod, .method | requestEntityBegin, .method => true
  | requestMethod, _ | requestEntityBegin, _ => false
  | headerNameBegin, _ | headerEndLf, _ => false
  | s, .name => s.phase = .headers
  | s, _ => s.phase = .idle

def State.hasValue : State → Bool
  | headerNameBegin | headerName | headerEndLf => false
  | s => s.phase = .headers || s.phase = .failed

/-- In white space, after which there may be more of a value. -/
def State.isLws : State → Bool
  | lwsBegin | lwsLf | lwsSpHtBegin | lwsSpHt => true
  | _ => false

/-- What is set in the second state is set in the first one. -/
def State.keeps (s s' : State) : Bool :=
  (!s'.live .method || s.live .method) && (!s'.live .entity || s.live .entity) &&
    (!s'.live .name || s.live .name) && (s'.hasValue || !s.hasValue) && (!s'.isStatus || s.isStatus)

/-- No value begins or goes on in the second state that does not in the first one. -/
def State.leaves (s s' : State) : Bool := s' ≠ .headerValue && (!s'.isLws || s.isLws)

section

variable {s s' : State} (h : s.keeps s' = true)
include h

theorem State.live_of_keeps {slot : Slot} (hlive : s'.live slot = true) : s.live slot = true := by
  simp only [keeps, and_eq_true, or_eq_true, not_eq_true'] at h
  obtain ⟨⟨⟨⟨h₁, h₂⟩, h₃⟩, -⟩, -⟩ := h
  cases slot with
  | method => exact h₁.resolve_left (hlive ▸ nofun)
  | entity => exact h₂.resolve_left (hlive ▸ nofun)
  | name => exact h₃.resolve_left (hlive ▸ nofun)

theorem State.hasValue_of_keeps (hvalue : s'.hasValue = false) : s.hasValue = false := by
  simp only [keeps, and_eq_true, or_eq_true, hvalue, not_eq_true'] at h
  exact h.1.2.resolve_left nofun

theorem State.isStatus_of_keeps (hs : s.isStatus = false) : s'.isStatus = false := by
  simp only [keeps, and_eq_true, or_eq_true, hs, not_eq_true'] at h
  exact h.2.resolve_right nofun

end

def State.headersOver (s : State) : Bool := s = .headerEndLf || s.hasContent

def Iteration.after : Iteration → Parser
  | .next p _ _ | .done p _ _ | .raise p => p

namespace Parser

def ref (p : Parser) : Slot → Ref
  | .method => p.method
  | .entity => p.entity
  | .name => p.name

/-- The second parser of requests is where the first one is, `k` bytes further on. It may have seen
chunks before. -/
structure Tracks (k : ℕ) (b : Bool) (p p' : Parser) : Prop where
  isRequest : p.mode = .request
  notStatus : p.state.isStatus = false
  mode_eq : p'.mode = p.mode
  state_eq : p'.state = p.state
  lwsNext_eq : p.state.isLws = true → p'.lwsNext = p.lwsNext
  lwsNull_eq : p.state.isLws = true → p'.lwsNull = p.lwsNull
  versionMajor_eq : p'.versionMajor = p.versionMajor
  versionMinor_eq : p'.versionMinor = p.versionMinor
  contentLength_eq : p'.contentLength = p.contentLength
  chunked_eq : p'.chunked = (p.chunked || b)
  /-- What is set is the same, further on. -/
  ref_eq : ∀ slot, p.state.live slot = true → p'.ref slot = (p.ref slot).shift k
  size_eq : p'.value.size = p.value.size
  offset_eq : p.value.size ≠ 0 → p'.value.offset = p.value.offset + k
  /-- A value is cleared when it was used. -/
  cleared : p.state.hasValue = false → p.value.size = 0
  begun : p.state = .headerValue ∨ (p.state.isLws = true ∧ p.lwsNext.1 = .headerValue) →
    p.value.size ≠ 0

/-- The second iteration does what the first one does, `k` bytes further on. -/
def Follows (k : ℕ) (b : Bool) : Iteration → Iteration → Prop
  | .next p n es, .next p' n' es' => Tracks k b p p' ∧ n' = n ∧ es' = es
  | .done p n es, .done p' n' es' => Tracks k b p p' ∧ n' = n ∧ es' = es
  | .raise _, .raise _ => True
  | _, _ => False

section

variable {k k₁ : ℕ} {b : Bool} {p p' p₁ : Parser} {data pre t : Bytes} {pos n : ℕ} {c : UInt8}
  {es : List Event}

variable {s : State}

theorem Tracks.setLws {next next' : { s : State // s.afterLws = true }}
    {null null' : { s : State // s.afterLf = true }} (h : Tracks k b p p') (hs : p.state.keeps s = true)
    (hlws : s.isLws = true → next' = next ∧ null' = null)
    (hbegun : s = .headerValue ∨ s.isLws = true ∧ next.1 = .headerValue → p.value.size ≠ 0) :
    Tracks k b { p with state := s, lwsNext := next, lwsNull := null }
      { p' with state := s, lwsNext := next', lwsNull := null' } :=
  { h with
    state_eq := rfl, lwsNext_eq := fun hs ↦ (hlws hs).1, lwsNull_eq := fun hs ↦ (hlws hs).2
    notStatus := isStatus_of_keeps hs h.notStatus
    ref_eq := fun slot hlive ↦ h.ref_eq slot (live_of_keeps hs hlive)
    cleared := fun hvalue ↦ h.cleared (hasValue_of_keeps hs hvalue)
    begun := hbegun }

theorem Tracks.setState (h : Tracks k b p p') (hs : (p.state.keeps s && p.state.leaves s) = true) :
    Tracks k b { p with state := s } { p' with state := s } := by
  simp only [leaves, and_eq_true, decide_eq_true_eq, or_eq_true, not_eq_true'] at hs
  obtain ⟨hkeeps, hvalue, hlws⟩ := hs
  have hlws (hs : s.isLws = true) : p.state.isLws = true := hlws.resolve_left (hs ▸ nofun)
  refine h.setLws hkeeps (fun hs ↦ ⟨h.lwsNext_eq (hlws hs), h.lwsNull_eq (hlws hs)⟩) ?_
  rintro (hs | ⟨hs, hnext⟩)
  · exact absurd hs hvalue
  · exact h.begun (.inr ⟨hlws hs, hnext⟩)

/-- Outside of values, what is set is all that matters. -/
theorem Tracks.setRefs (h : Tracks k b p p') (hclear : p.value.size = 0) {m m' e e' n n' : Ref}
    (hs : (s.isStatus || s.isLws || s = .headerValue) = false)
    (hm : s.live .method = true → m' = m.shift k) (he : s.live .entity = true → e' = e.shift k)
    (hn : s.live .name = true → n' = n.shift k) :
    Tracks k b { p with state := s, method := m, entity := e, name := n }
      { p' with state := s, method := m', entity := e', name := n' } := by
  simp only [or_eq_false_iff, decide_eq_false_iff_not] at hs
  obtain ⟨⟨hstatus, hlws⟩, hvalue⟩ := hs
  have hlws : ¬s.isLws = true := eq_false_iff.1 hlws
  exact { h with
    state_eq := rfl, lwsNext_eq := (absurd · hlws), lwsNull_eq := (absurd · hlws)
    notStatus := hstatus, ref_eq := Slot.rec hm he hn, cleared := fun _ ↦ hclear
    begun := fun hbegun ↦ absurd hbegun (by tauto) }

theorem Follows.next {i : Iteration} (h : Follows k b (.next p n es) i) :
    ∃ p', i = .next p' n es ∧ Tracks k b p p' := by
  cases i with
  | next p' n' es' =>
    obtain ⟨hp, rfl, rfl⟩ := h
    exact ⟨p', rfl, hp⟩
  | _ => exact h.elim

theorem Follows.done {i : Iteration} (h : Follows k b (.done p n es) i) :
    ∃ p', i = .done p' n es ∧ Tracks k b p p' := by
  cases i with
  | done p' n' es' =>
    obtain ⟨hp, rfl, rfl⟩ := h
    exact ⟨p', rfl, hp⟩
  | _ => exact h.elim

theorem follows_nextChar (h : Tracks k b p p') : Follows k b p.nextChar p'.nextChar := ⟨h, rfl, rfl⟩

theorem keeps_protocolError (s : State) :
    (s.keeps .protocolError && s.leaves .protocolError) = true := by
  cases s <;> rfl

theorem follows_badRequest (h : Tracks k b p p') : Follows k b p.badRequest p'.badRequest :=
  ⟨h.setState (keeps_protocolError _), rfl, rfl⟩

variable {a : Prop} {i₁ i₂ j₁ j₂ : Iteration}

theorem follows_ite [Decidable a] (h₁ : Follows k b i₁ j₁)
    (h₂ : Follows k b i₂ j₂) : Follows k b (if a then i₁ else i₂) (if a then j₁ else j₂) := by
  split
  · exact h₁
  · exact h₂

theorem follows_ite_of_iff {a' : Prop} [Decidable a] [Decidable a']
    (ha : a' ↔ a) (h₁ : Follows k b i₁ j₁) (h₂ : Follows k b i₂ j₂) :
    Follows k b (if a then i₁ else i₂) (if a' then j₁ else j₂) := by
  simp only [ha]
  exact follows_ite h₁ h₂

theorem acceptHeader_tracks (h : Tracks k b p p') (name value : Bytes) :
    Tracks k b (p.acceptHeader name value).1 (p'.acceptHeader name value).1 ∧
      (p'.acceptHeader name value).2 = (p.acceptHeader name value).2 := by
  simp only [acceptHeader]
  split
  · exact ⟨{ h with contentLength_eq := rfl }, rfl⟩
  split
  · split
    · exact ⟨{ h with chunked_eq := rfl }, rfl⟩
    · exact ⟨h, rfl⟩
  · exact ⟨h, rfl⟩

theorem keeps_of_afterLws {s' : State} (hs : s.isLws = true) (h : s'.afterLws = true) :
    s.keeps s' = true := by
  cases s <;> first | (cases hs; done) | (revert h; cases s' <;> decide)

theorem keeps_of_afterLf (h : s.afterLf = true) :
    (lwsSpHtBegin.keeps s && lwsSpHtBegin.leaves s) = true := by
  revert h
  cases s <;> decide

theorem Tracks.setLwsNext (h : Tracks k b p p') (hs : p.state.isLws = true) :
    Tracks k b { p with state := p.lwsNext } { p' with state := p'.lwsNext } := by
  have hkeeps := keeps_of_afterLws hs p.lwsNext.2
  have hlws : p.lwsNext.1.isLws = false := by
    obtain ⟨s, hs⟩ := p.lwsNext
    revert hs
    cases s <;> decide
  rw [h.lwsNext_eq hs]
  refine h.setLws hkeeps (fun hlws' ↦ absurd hlws' (hlws ▸ nofun)) ?_
  rintro (hnext | ⟨hlws', -⟩)
  · exact h.begun (Or.inr ⟨hs, hnext⟩)
  · exact absurd hlws' (hlws ▸ nofun)

theorem Tracks.setValue (h : Tracks k b p p') (hs : p.state.isLws = true)
    (hs' : s = .lwsSpHt) (n : ℕ) :
    Tracks k b
      { p with value := if p.value.size ≠ 0 then p.value.shr n else p.value, state := s }
      { p' with value := if p'.value.size ≠ 0 then p'.value.shr n else p'.value, state := s } := by
  subst hs'
  have hkeeps : (p.state.keeps .lwsSpHt && p.state.leaves .lwsSpHt) = true := by
    revert hs
    cases p.state <;> decide
  have hspace := h.setState hkeeps
  by_cases hzero : p.value.size = 0
  · have hzero' : p'.value.size = 0 := h.size_eq.trans hzero
    simp only [hzero, hzero', ne_eq, not_true_eq_false, if_false]
    exact hspace
  · have hzero' : p'.value.size ≠ 0 := h.size_eq.trans_ne hzero
    simp only [if_pos hzero, if_pos hzero']
    exact { hspace with
      size_eq := congrArg (· + n) h.size_eq, offset_eq := fun _ ↦ h.offset_eq hzero, cleared := nofun
      begun := fun _ hsize ↦ hzero (Nat.eq_zero_of_add_eq_zero_right hsize) }

/-- **An iteration further on does the same**, where chunks that came before do not matter. -/
theorem iterate_relocates (h : Tracks pre.length b p p') (hv : p.Valid pos) (hpos : pos < data.length)
    (hchunked : p.state = .headerEndLf ∨ p.state = .contentBegin → p'.chunked = p.chunked)
    (hinside : p.isBulk = true →
      p.state ≠ .contentEndless ∧ p.contentLength.toNat ≤ data.length - pos) :
    Follows pre.length b (p.iterate data pos c)
      (p'.iterate (pre ++ data ++ t) (pre.length + pos) c) := by
  obtain ⟨hmethod, hentity, -, hname, hvalue, -⟩ := id hv
  have hbytes {r r' : Ref} (hr : r.stop ≤ pos) (hr' : r' = r.shift pre.length) :
      r'.bytes (pre ++ data ++ t) = r.bytes data := by
    rw [hr', bytes_shift (hr.trans hpos.le)]
  have hmethod' (hl : p.state.live .method = true) := hbytes hmethod (h.ref_eq .method hl)
  have hentity' (hl : p.state.live .entity = true) := hbytes hentity (h.ref_eq .entity hl)
  have hname' (hl : p.state.live .name = true) := hbytes hname (h.ref_eq .name hl)
  simp only [ref] at hmethod' hentity' hname'
  have hversion : makeVersion p'.versionMajor p'.versionMinor =
      makeVersion p.versionMajor p.versionMinor := by rw [h.versionMajor_eq, h.versionMinor_eq]
  have hvalue' : p'.value.bytes (pre ++ data ++ t) = p.value.bytes data := by
    by_cases hzero : p.value.size = 0
    · rw [bytes, bytes, h.size_eq, hzero, take_zero, take_zero]
    · refine hbytes ((Nat.le_add_right _ _).trans hvalue) ?_
      rw [shift, ← h.offset_eq hzero, ← h.size_eq]
  -- All the content is there in both cases.
  have hsize (hle : p.contentLength.toNat ≤ data.length - pos) :
      min p'.contentLength.toNat ((pre ++ data ++ t).length - (pre.length + pos)) =
        min p.contentLength.toNat (data.length - pos) := by
    rw [h.contentLength_eq, length_append, length_append]
    omega
  have hchunk {n : ℕ} : ((pre ++ data ++ t).drop (pre.length + pos)).take
      (min n (data.length - pos)) = (data.drop pos).take (min n (data.length - pos)) := by
    rw [append_assoc, ← drop_drop, drop_left, drop_append_of_le_length hpos.le,
      take_append_of_le_length]
    rw [length_drop]
    exact min_le_right _ _
  have hhere : (⟨pre.length + pos, 1⟩ : Ref) = shift ⟨pos, 1⟩ pre.length := by
    rw [shift, add_comm]
  have hbad := follows_badRequest h
  rcases hs : p.state
  all_goals
    have hs' := h.state_eq.trans hs
    have hto {s : State} (hk : (keeps _ s && leaves _ s) = true) :
        Tracks pre.length b { p with state := s } { p' with state := s } :=
      h.setState ((congrArg (fun s' ↦ keeps s' s && leaves s' s) hs).trans hk)
    have hlive (slot : Slot) (hl : live _ slot = true) :
        p'.ref slot = (p.ref slot).shift pre.length :=
      h.ref_eq slot ((congrArg (live · slot) hs).trans hl)
    have hclear (hc : hasValue _ = false) : p.value.size = 0 :=
      h.cleared ((congrArg hasValue hs).trans hc)
    have hlws {s : State} {next : { s : State // s.afterLws = true }}
        {null : { s : State // s.afterLf = true }} (hk : keeps _ s = true)
        (hvalue : s ≠ .headerValue) (hnext : next.1 ≠ .headerValue) :
        Tracks pre.length b { p with state := s, lwsNext := next, lwsNull := null }
          { p' with state := s, lwsNext := next, lwsNull := null } :=
      h.setLws ((congrArg (keeps · s) hs).trans hk) (fun _ ↦ ⟨rfl, rfl⟩) fun hbegun ↦
        absurd (hbegun.resolve_left hvalue).2 hnext
    simp only [iterate, hs, hs', expect, readMajor, readMinor, readChunkSize, readDigit]
  case unset => exact ⟨h, rfl, rfl⟩
  case protocolError => exact ⟨h, rfl, rfl⟩
  case messageBegin =>
    rw [h.mode_eq, h.isRequest]
    exact ⟨{ hto rfl with
      isRequest := rfl, mode_eq := rfl, versionMajor_eq := rfl, versionMinor_eq := rfl
      contentLength_eq := rfl }, rfl, rfl⟩
  -- A reference is set to the byte or gets it, and the others stay.
  case requestLineBegin | requestMethod | requestEntityBegin | requestEntity | headerNameBegin |
      headerName | headerColon =>
    repeat' first
      | exact hbad
      | exact follows_nextChar (hto rfl)
      | exact follows_nextChar (hlws rfl (by decide) (by decide))
      | refine follows_nextChar (h.setRefs (hclear rfl) rfl ?_ ?_ ?_)
      | apply follows_ite
    all_goals
      first
      | (rintro ⟨⟩; done)
      | exact fun _ ↦ hhere
      | exact fun _ ↦ hlive .method rfl
      | exact fun _ ↦ congrArg (shr · 1) (hlive .method rfl)
      | exact fun _ ↦ congrArg (shr · 1) (hlive .entity rfl)
      | exact fun _ ↦ congrArg (shr · 1) (hlive .name rfl)
  case request09Lf =>
    refine follows_ite ⟨h, rfl, ?_⟩ hbad
    rw [hmethod' (by rw [hs]; rfl), hentity' (by rw [hs]; rfl)]
  case requestLineLf =>
    refine follows_ite ?_ hbad
    rw [hversion, hmethod' (by rw [hs]; rfl), hentity' (by rw [hs]; rfl)]
    rcases makeVersion p.versionMajor p.versionMinor with - | - | - | -
    · trivial
    all_goals exact ⟨hto rfl, rfl, rfl⟩
  case lwsBegin =>
    refine follows_ite (follows_nextChar (hto rfl))
      (follows_ite (follows_nextChar (hto rfl))
        (follows_ite ?_ hbad))
    exact ⟨h.setLwsNext (by rw [hs]; rfl), rfl, rfl⟩
  case lwsSpHtBegin =>
    refine follows_ite (follows_nextChar (h.setValue (by rw [hs]; rfl) rfl 3)) ?_
    have hnull := hto (keeps_of_afterLf p.lwsNull.2)
    have heq := h.lwsNull_eq (by rw [hs]; rfl)
    exact ⟨{ hnull with state_eq := congrArg Subtype.val heq }, rfl, by rw [heq]⟩
  case lwsSpHt =>
    exact follows_ite (follows_nextChar (h.setValue (by rw [hs]; rfl) rfl 1))
      ⟨h.setLwsNext (by rw [hs]; rfl), rfl, rfl⟩
  case headerValueBegin =>
    refine follows_ite (follows_nextChar ?_)
      (follows_ite (follows_nextChar (hto rfl)) hbad)
    refine { h with
      state_eq := rfl, lwsNext_eq := by rintro ⟨⟩, lwsNull_eq := by rintro ⟨⟩, notStatus := rfl
      ref_eq := fun slot hl ↦ hlive slot ?_, size_eq := rfl, offset_eq := fun _ ↦ add_comm _ _
      cleared := by rintro ⟨⟩, begun := fun _ ↦ one_ne_zero }
    cases slot <;> first | rfl | cases hl
  case headerValue =>
    have hbegun : p.value.size ≠ 0 := h.begun (Or.inl hs)
    have hmore : Tracks pre.length b { p with value := p.value.shr 1, state := .headerValue }
        { p' with value := p'.value.shr 1, state := .headerValue } :=
      { h with
        state_eq := rfl, lwsNext_eq := by rintro ⟨⟩, lwsNull_eq := by rintro ⟨⟩, notStatus := rfl
        ref_eq := hlive, size_eq := congrArg (· + 1) h.size_eq, cleared := by rintro ⟨⟩
        offset_eq := fun _ ↦ h.offset_eq hbegun, begun := fun _ ↦ Nat.succ_ne_zero _ }
    refine follows_ite (follows_nextChar ?_)
      (follows_ite (follows_nextChar hmore) hbad)
    exact h.setLws (by rw [hs]; rfl) (fun _ ↦ ⟨rfl, rfl⟩) fun _ ↦ hbegun
  case headerValueEnd =>
    rw [hname' (by rw [hs]; rfl), hvalue']
    obtain ⟨hheader, hevents⟩ := acceptHeader_tracks h (p.name.bytes data) (p.value.bytes data)
    exact ⟨{ hheader with
      state_eq := rfl, lwsNext_eq := by rintro ⟨⟩, lwsNull_eq := by rintro ⟨⟩, notStatus := rfl
      ref_eq := by rintro _ ⟨⟩, size_eq := rfl, offset_eq := fun h ↦ absurd rfl h
      cleared := fun _ ↦ rfl, begun := by simp [isLws] }, rfl, hevents⟩
  case headerEndLf =>
    have hexpected : p'.isContentExpected = p.isContentExpected := by
      rw [isContentExpected, isContentExpected, h.contentLength_eq, hchunked (Or.inl hs), h.mode_eq]
    exact follows_ite (follows_ite_of_iff (by rw [hexpected]) ⟨hto rfl, rfl, rfl⟩
      ⟨hto rfl, rfl, rfl⟩) hbad
  case contentBegin =>
    have hnext {s : State} (hk : (keeps .contentBegin s && leaves .contentBegin s) = true) :
        Follows pre.length b (.next { p with state := s } 0 []) (.next { p' with state := s } 0 []) :=
      ⟨hto hk, rfl, rfl⟩
    exact follows_ite_of_iff (by rw [hchunked (Or.inr hs)]) (hnext rfl)
      (follows_ite_of_iff (by rw [h.contentLength_eq]) (hnext rfl) (hnext rfl))
  case contentEndless => exact absurd hs (hinside (by simp [isBulk, hs])).1
  case content =>
    simp only [hsize (hinside (by simp [isBulk, hs])).2, hchunk]
    have hlength {s : State} (hk : (keeps .content s && leaves .content s) = true)
        (n : ℕ) : Tracks pre.length b
          { p with contentLength := p.contentLength - BitVec.ofNat 64 n, state := s }
          { p' with contentLength := p'.contentLength - BitVec.ofNat 64 n, state := s } :=
      { hto hk with contentLength_eq := by rw [h.contentLength_eq] }
    exact follows_ite_of_iff (by rw [h.contentLength_eq]) ⟨hlength rfl _, rfl, rfl⟩
      ⟨hlength rfl _, rfl, rfl⟩
  case contentChunkBody =>
    by_cases hzero : p.contentLength = 0
    · have hzero' : p'.contentLength = 0 := h.contentLength_eq.trans hzero
      rw [if_neg (not_not.2 hzero), if_neg (not_not.2 hzero')]
      exact follows_ite (follows_nextChar (hto rfl)) hbad
    · have hzero' : p'.contentLength ≠ 0 := h.contentLength_eq.trans_ne hzero
      have hle := (hinside (by simpa [isBulk, hs] using hzero)).2
      rw [if_pos hzero, if_pos hzero', hsize hle, hchunk]
      refine ⟨?_, rfl, rfl⟩
      exact { hto rfl with
        contentLength_eq := by rw [h.contentLength_eq] }
  case contentChunkLf1 =>
    rw [h.contentLength_eq]
    refine follows_ite (follows_nextChar { hto ?_ with contentLength_eq := rfl }) hbad
    split <;> rfl
  case contentChunkLf3 => exact follows_ite hbad ⟨hto rfl, rfl, rfl⟩
  -- The other states take a byte, which may be a digit, or report an error.
  all_goals
    repeat' first
      | (cases hs ▸ h.notStatus; done)
      | exact hbad
      | exact follows_nextChar (hto rfl)
      | exact follows_nextChar { hto rfl with versionMajor_eq := by rw [h.versionMajor_eq] }
      | exact follows_nextChar { hto rfl with versionMinor_eq := by rw [h.versionMinor_eq] }
      | exact follows_nextChar { hto rfl with contentLength_eq := by simp only [h.contentLength_eq] }
      | exact follows_badRequest { hto rfl with contentLength_eq := rfl }
      | apply follows_ite

/-! ### Chunks -/

theorem iterate_chunked (hs : p.state ≠ .headerValueEnd) :
    (p.iterate data pos c).after.chunked = p.chunked := by
  rcases hs' : p.state
  case headerValueEnd => exact absurd hs' hs
  all_goals
    simp only [iterate, hs', expect, readMajor, readMinor, readStatusCode, readChunkSize, readDigit,
      nextChar, badRequest]
    repeat' split
    all_goals rfl

theorem State.not_headerValueEnd (h : s.headersOver = true) : s ≠ .headerValueEnd := by
  rintro rfl
  cases h

theorem headersOver_of_next (hs : p.state.headersOver = true)
    (h : p.iterate data pos c = .next p' n es) :
    p'.state.headersOver = true ∧ p'.chunked = p.chunked := by
  have hchunked := h ▸ iterate_chunked (State.not_headerValueEnd hs)
  refine ⟨?_, hchunked⟩
  rw [headersOver, or_eq_true, decide_eq_true_eq] at hs
  rcases hs with hs | hs
  · simp only [iterate, hs, badRequest] at h
    split_ifs at h <;> cases h <;> rfl
  · have hpast := pastBegin_of_next hs h
    rw [pastBegin, and_eq_true] at hpast
    rw [headersOver, hpast.1, Bool.or_true]

/-- The parser that the loop is left with. -/
def Exit.after : Exit → Parser
  | .reached p _ | .done p _ | .raised p => p

theorem loop_chunked (hs : p.state.headersOver = true) :
    (p.loop data pos).2.after.chunked = p.chunked := by
  fun_induction loop p data pos with
  | case1 p pos hpos p' n es' hit r ih =>
    obtain ⟨hs', hchunked⟩ := headersOver_of_next hs hit
    exact (ih hs').trans hchunked
  | case2 p pos hpos p' n es' hit | case3 p pos hpos p' hit =>
    have hchunked : (p.iterate data pos data[pos]).after.chunked = p.chunked :=
      iterate_chunked (State.not_headerValueEnd hs)
    rwa [hit] at hchunked
  | case4 p pos hpos => rfl

theorem loop_done_chunked (hs : p.state.headersOver = true)
    (h : p.loop data pos = (es, .done p₁ k₁)) : p₁.chunked = p.chunked := by
  have hchunked : (p.loop data pos).2.after.chunked = p.chunked := loop_chunked hs
  rwa [h] at hchunked

/-! ### Loops -/

/-- Content that does not reach up to the end of the data, or is the last one, is all there. -/
theorem bulk_inside (hv : p.Valid pos) (hpos : pos < data.length) (hbulk : p.isBulk = true)
    (hstep : (machine data).step (p, pos) = .ok (es, (p', pos + n)))
    (h : pos + n < data.length ∨ ∃ es', es = es' ++ [.messageEnd]) :
    p.state ≠ .contentEndless ∧ p.contentLength.toNat ≤ data.length - pos := by
  by_contra hnot
  have hsize : p.bulkSize (data.length - pos + 1) ≠ p.bulkSize (data.length - pos) := by
    rw [bulkSize, bulkSize]
    split
    · omega
    · next hs =>
      have := not_le.1 fun hle ↦ hnot ⟨hs, hle⟩
      omega
  obtain ⟨hall, hnil, -⟩ := bulk_of_lt hbulk one_pos hsize
  rw [step_bulk hv hbulk hpos hall, hnil, Except.ok.injEq, Prod.mk.injEq, Prod.mk.injEq] at hstep
  obtain ⟨rfl, -, hn⟩ := hstep
  rcases h with h | ⟨es', hes'⟩
  · omega
  · rw [← nil_append [_]] at hes'
    cases (append_inj_right' hes' rfl)

theorem bulk_inside_of_done (hv : p.Valid pos) (hpos : pos < data.length) (hbulk : p.isBulk = true)
    (hit : p.iterate data pos data[pos] = .done p' n es) :
    p.state ≠ .contentEndless ∧ p.contentLength.toNat ≤ data.length - pos := by
  have hn : 0 < n := by
    by_contra hzero
    obtain rfl : n = 0 := by omega
    cases (step_of_rest hpos hit).symm.trans (step_bulk hv hbulk hpos rfl)
  refine bulk_inside hv hpos hbulk (step_of_done hpos hit hn) (Or.inr ?_)
  rcases iterate_done_last hit with ⟨-, hzero, -⟩ | hlast
  · exact absurd hzero hn.ne'
  · exact hlast

theorem lt_relocated (pre t : Bytes) (hpos : pos < data.length) :
    pre.length + pos < (pre ++ data ++ t).length := by
  rw [length_append, length_append]
  omega

theorem get_relocated (pre t : Bytes) (hpos : pos < data.length) :
    (pre ++ data ++ t).get ⟨pre.length + pos, lt_relocated pre t hpos⟩ = data[pos] := by
  simp only [append_assoc, get_eq_getElem, getElem_append_right
    (Nat.le_add_right pre.length pos), Nat.add_sub_cancel_left, getElem_append_left hpos]

/-- **A message behind others is taken as it is on its own**, if no chunks came before, or it comes
in chunks itself. -/
theorem loop_relocates (h : Tracks pre.length b p p') (hv : p.Valid pos)
    (hb : b = false ∨ p₁.chunked = true) (hloop : p.loop data pos = (es, .done p₁ k₁)) :
    ∃ p₁', p'.loop (pre ++ data ++ t) (pre.length + pos) = (es, .done p₁' (pre.length + k₁)) ∧
      Tracks pre.length b p₁ p₁' := by
  have hchunked : ∀ {p p' : Parser} {pos : ℕ} {es : List Event}, Tracks pre.length b p p' →
      p.loop data pos = (es, .done p₁ k₁) →
      (p.state = .headerEndLf ∨ p.state = .contentBegin → p'.chunked = p.chunked) := by
    intro p p' pos es h hloop hs
    rw [h.chunked_eq]
    rcases hb with rfl | hb
    · exact or_false _
    · have hover : p.state.headersOver = true := by rcases hs with hs | hs <;> rw [hs] <;> rfl
      rw [← loop_done_chunked hover hloop, hb, Bool.true_or]
  revert h hv p'
  show ∀ p', _
  refine loop_done_induction hloop ?_ ?_
  · intro p pos q n es es' hpos hit hlt _ hloop' ih p' h hv
    have hfollow := iterate_relocates (c := data[pos]) (t := t) h hv hpos (hchunked h hloop')
      fun hbulk ↦ bulk_inside hv hpos hbulk (step_of_next hpos hit) (Or.inl hlt)
    rw [hit, ← get_relocated pre t hpos] at hfollow
    obtain ⟨q', hx, hq⟩ := hfollow.next
    obtain ⟨-, -, hvalid⟩ := iterate_next hit
    obtain ⟨p₁', hloop₁, htracks⟩ := ih _ hq (hvalid hv)
    refine ⟨p₁', ?_, htracks⟩
    rw [loop_of_next (lt_relocated pre t hpos) hx, add_assoc, hloop₁]
  · rintro p pos n es hpos hit rfl hloop' p' h hv
    have hfollow := iterate_relocates (c := data[pos]) (t := t) h hv hpos (hchunked h hloop')
      fun hbulk ↦ bulk_inside_of_done hv hpos hbulk hit
    rw [hit, ← get_relocated pre t hpos] at hfollow
    obtain ⟨q', hx, hq⟩ := hfollow.done
    exact ⟨q', by rw [loop_of_done (lt_relocated pre t hpos) hx, add_assoc], hq⟩

/-! ### Between messages -/

/-- A parser of requests between two of them. -/
structure Ready (b : Bool) (p : Parser) : Prop where
  mode_eq : p.mode = .request
  state_eq : p.state = .messageBegin
  chunked_eq : p.chunked = b
  size_eq : p.value.size = 0

theorem ready_init : Ready false (init .request) := ⟨rfl, rfl, rfl, rfl⟩

theorem Tracks.ready (h : Tracks k b p p') (hs : p.state = .messageBegin) :
    Ready (b || p.chunked) p' where
  mode_eq := h.mode_eq.trans h.isRequest
  state_eq := h.state_eq.trans hs
  chunked_eq := h.chunked_eq.trans (or_comm _ _)
  size_eq := h.size_eq.trans (h.cleared (hs ▸ rfl))

/-- The parser at the beginning of a request line. -/
def begin (p : Parser) : Parser :=
  { p with contentLength := -1, state := .requestLineBegin, versionMajor := 0, versionMinor := 0 }

theorem Ready.loop_begin (h : Ready b p) (hpos : pos < data.length) :
    p.loop data pos = p.begin.loop data pos := by
  have hit : p.iterate data pos data[pos] = .next p.begin 0 [] := by
    simp only [iterate, h.state_eq, h.mode_eq, begin]
  rw [loop_of_next hpos hit]
  rfl

theorem Ready.tracks (h : Ready b p) (k : ℕ) : Tracks k b (init .request).begin p.begin where
  isRequest := rfl
  notStatus := rfl
  mode_eq := h.mode_eq
  state_eq := rfl
  lwsNext_eq := nofun
  lwsNull_eq := nofun
  versionMajor_eq := rfl
  versionMinor_eq := rfl
  contentLength_eq := rfl
  chunked_eq := h.chunked_eq
  ref_eq := nofun
  size_eq := h.size_eq
  offset_eq := fun h ↦ absurd rfl h
  cleared := fun _ ↦ rfl
  begun := nofun

end

end Parser

end Xzero.Http.Http1
