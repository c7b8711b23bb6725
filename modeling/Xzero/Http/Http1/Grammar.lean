import Xzero.Http.Http1.Machine

/-!
# The events of the HTTP/1 parser

Whatever the parser is fed with, and in whatever fragments, **the listener gets a sequence of
messages, the last of which may not be complete, and an error at most at the end**
(`Parser.calls_grammatical`). The order of the events is that of the parser's phases, which
`Parser.step_sound` gives for a step.
-/

namespace Xzero.Http.Http1

open List Util Option Phase

/-! ### Sequences of messages -/

def Event.isBegin : Event → Bool
  | .requestBegin .. | .responseBegin .. | .messageBegin => true
  | _ => false

/-- A message, as a listener gets it. -/
structure Message where
  start : Event
  isBegin : start.isBegin = true
  headers : List (Bytes × Bytes)
  contents : List Bytes

namespace Message

def headEvents (m : Message) : List Event := m.start :: m.headers.map fun h ↦ .header h.1 h.2

def openEvents (m : Message) : List Event :=
  m.headEvents ++ .headerEnd :: m.contents.map .content

def events (m : Message) : List Event := m.openEvents ++ [.messageEnd]

end Message

/-- The events are the first part of a sequence of messages, possibly followed by an error. -/
def Grammatical (es : List Event) : Prop :=
  ∃ (ms : List Message) (front : List Event), front <+: ms.flatMap Message.events ∧
    (es = front ∨ ∃ code, es = front ++ [.protocolError code])

def Phase.Accepts : Phase → List Event → Prop
  | .idle, es => ∃ ms : List Message, es = ms.flatMap Message.events
  | .headers, es => ∃ (ms : List Message) (m : Message), es = ms.flatMap Message.events ++ m.headEvents
  | .contents, es => ∃ (ms : List Message) (m : Message), es = ms.flatMap Message.events ++ m.openEvents
  | .failed, es => ∃ (ms : List Message) (front : List Event) (code : BitVec 32),
    front <+: ms.flatMap Message.events ∧ es = front ++ [.protocolError code]

section

variable {φ φ' : Phase} {es : List Event} {e : Event}

theorem Phase.Accepts.exists_messages (h : φ.Accepts es) (hφ : φ ≠ .failed) :
    ∃ ms : List Message, es <+: ms.flatMap Message.events := by
  have hopen : ∀ (ms : List Message) (m : Message),
      ms.flatMap Message.events ++ m.openEvents <+: (ms ++ [m]).flatMap Message.events := by
    intro ms m
    rw [flatMap_append, flatMap_singleton, Message.events, ← append_assoc]
    exact prefix_append _ _
  cases φ with
  | idle =>
    obtain ⟨ms, rfl⟩ := h
    exact ⟨ms, prefix_refl _⟩
  | headers =>
    obtain ⟨ms, m, rfl⟩ := h
    refine ⟨ms ++ [m], IsPrefix.trans ?_ (hopen ms m)⟩
    rw [Message.openEvents, ← append_assoc]
    exact prefix_append _ _
  | contents =>
    obtain ⟨ms, m, rfl⟩ := h
    exact ⟨ms ++ [m], hopen ms m⟩
  | failed => exact absurd rfl hφ

theorem Phase.Accepts.grammatical (h : φ.Accepts es) : Grammatical es := by
  by_cases hφ : φ = .failed
  · subst hφ
    obtain ⟨ms, front, code, hfront, rfl⟩ := h
    exact ⟨ms, front, hfront, .inr ⟨code, rfl⟩⟩
  · obtain ⟨ms, hms⟩ := h.exists_messages hφ
    exact ⟨ms, es, hms, .inl rfl⟩

theorem Phase.Accepts.next (h : φ.Accepts es) (hnext : φ.next e = some φ') : φ'.Accepts (es ++ [e]) := by
  cases e with
  | requestBegin method entity version | responseBegin version code text | messageBegin =>
    cases φ <;> cases hnext
    obtain ⟨ms, rfl⟩ := h
    exact ⟨ms, ⟨_, rfl, [], []⟩, rfl⟩
  | header name value =>
    cases φ <;> cases hnext
    obtain ⟨ms, m, rfl⟩ := h
    refine ⟨ms, { m with headers := m.headers ++ [(name, value)] }, ?_⟩
    simp [Message.headEvents]
  | headerEnd =>
    cases φ <;> cases hnext
    obtain ⟨ms, m, rfl⟩ := h
    refine ⟨ms, { m with contents := [] }, ?_⟩
    simp [Message.openEvents, Message.headEvents]
  | content chunk =>
    cases φ <;> cases hnext
    obtain ⟨ms, m, rfl⟩ := h
    refine ⟨ms, { m with contents := m.contents ++ [chunk] }, ?_⟩
    simp [Message.openEvents, Message.headEvents]
  | messageEnd =>
    cases φ <;> cases hnext
    obtain ⟨ms, m, rfl⟩ := h
    refine ⟨ms ++ [m], ?_⟩
    rw [flatMap_append, flatMap_singleton, Message.events, append_assoc]
  | protocolError code =>
    -- Before the failure there is the beginning of a message, or nothing of it.
    have hφ : φ ≠ .failed := by
      rintro rfl
      cases hnext
    obtain ⟨ms, hms⟩ := h.exists_messages hφ
    cases φ <;> cases hnext <;> exact ⟨ms, es, code, hms, rfl⟩

theorem Phase.Accepts.run {es' : List Event} (h : φ.Accepts es) (hrun : φ.run es' = some φ') :
    φ'.Accepts (es ++ es') := by
  induction es' generalizing φ es with
  | nil =>
    cases hrun
    rwa [append_nil]
  | cons e es' ih =>
    obtain ⟨φ₁, hnext, hrun₁⟩ := bind_eq_some_iff.1 hrun
    rw [← singleton_append, ← append_assoc]
    exact ih (h.next hnext) hrun₁

theorem Phase.run_protocolError {code : BitVec 32} (hrun : φ.run es = some φ')
    (hmem : .protocolError code ∈ es) : φ' = .failed := by
  obtain ⟨es₁, es₂, rfl⟩ := append_of_mem hmem
  rw [run_append] at hrun
  obtain ⟨φ₁, -, hrun₁⟩ := bind_eq_some_iff.1 hrun
  obtain ⟨φ₂, hnext, hrun₂⟩ := bind_eq_some_iff.1 hrun₁
  have hφ₂ : φ₂ = .failed := by
    cases φ₁ <;> cases hnext <;> rfl
  subst hφ₂
  cases es₂ with
  | nil => exact (some.inj hrun₂).symm
  | cons e es₂ =>
    obtain ⟨φ₃, hnext₃, -⟩ := bind_eq_some_iff.1 hrun₂
    cases e <;> cases hnext₃

end

namespace Parser

/-! ### Calls -/

/-- A call of `parseFragment`. -/
def call (p : Parser) (data : Bytes) (inputOffset : ℕ) : Trace Event Parser :=
  match p.parseFragment data inputOffset with
  | (es, .raised _) => (es, none)
  | (es, .returned p' _) => (es, some p')

/-- Calls of `parseFragment`, each with a fragment of its own, up to an exception. -/
def calls (p : Parser) : List (Bytes × ℕ) → Trace Event Parser
  | [] => .pure p
  | (data, inputOffset) :: cs => (p.call data inputOffset).bind fun p' ↦ p'.calls cs

section

variable {p p' : Parser} {data : Bytes} {pos : ℕ} {es : List Event} {cs cs' : List (Bytes × ℕ)}

/-- The events go from the parser's phase to another one, in which the parser is left. -/
def Runs (p : Parser) (t : Trace Event Parser) : Prop :=
  ∃ φ, p.state.phase.run t.1 = some φ ∧ ∀ p', t.2 = some p' → p'.state.phase = φ

theorem runs_some (h : p.state.phase.run es = some p'.state.phase) : p.Runs (es, some p') :=
  ⟨_, h, fun _ h' ↦ by rw [some.inj h']⟩

theorem Runs.bind {t : Trace Event Parser} {f : Parser → Trace Event Parser} (h : p.Runs t)
    (hf : ∀ p', t.2 = some p' → p'.Runs (f p')) : p.Runs (t.bind f) := by
  obtain ⟨es, - | p'⟩ := t
  · exact h
  · obtain ⟨φ, hrun, hφ⟩ := h
    obtain ⟨φ', hrun', hφ'⟩ := hf p' rfl
    refine ⟨φ', ?_, hφ'⟩
    rw [Trace.bind_some, run_append, hrun, ← hφ p' rfl]
    exact hrun'

theorem call_runs (p : Parser) (data : Bytes) (pos : ℕ) : p.Runs (p.call data pos) := by
  have hreach := loop_steps p data pos
  rw [call, parseFragment]
  generalize p.loop data pos = r at hreach
  obtain ⟨es, ⟨p', pos'⟩ | ⟨p', pos'⟩ | p'⟩ := r
  · obtain ⟨hsteps, -⟩ := hreach
    obtain ⟨-, hrun, -⟩ := steps_sound hsteps
    simp only
    split_ifs with hend
    · refine runs_some ?_
      rw [run_append, hrun]
      simp only [hend.1]
      rfl
    · exact runs_some hrun
  · obtain ⟨s, es₁, es₂, hpos, n, rfl, -, hsteps, hit⟩ := hreach
    obtain ⟨-, hrun, -⟩ := steps_sound hsteps
    obtain ⟨-, hrun', -⟩ := iterate_done hit
    refine runs_some ?_
    rw [run_append, hrun]
    exact hrun'
  · obtain ⟨s, hsteps, -⟩ := hreach
    obtain ⟨-, hrun, -⟩ := steps_sound hsteps
    exact ⟨s.1.state.phase, hrun, fun _ h ↦ nomatch h⟩

theorem calls_runs (p : Parser) (cs : List (Bytes × ℕ)) : p.Runs (p.calls cs) := by
  induction cs generalizing p with
  | nil => exact runs_some rfl
  | cons c cs ih => exact (call_runs p c.1 c.2).bind fun p' _ ↦ ih p'

theorem calls_append : p.calls (cs ++ cs') = (p.calls cs).bind fun p' ↦ p'.calls cs' := by
  induction cs generalizing p with
  | nil => rfl
  | cons c cs ih =>
    rw [cons_append, calls, calls, Trace.bind_assoc]
    exact congrArg _ (funext fun p' ↦ ih)

theorem call_of_protocolError (h : p.state = .protocolError) : p.call data pos = ([], some p) := by
  by_cases hpos : pos < data.length
  · have hit : p.iterate data pos data[pos] = .done p 0 [] := by simp only [iterate, h]
    rw [call, parseFragment, loop_of_done hpos hit]
  · rw [call, parseFragment, loop_of_le (Nat.not_lt.1 hpos)]
    simp [h]

theorem calls_of_protocolError (h : p.state = .protocolError) : p.calls cs = ([], some p) := by
  induction cs with
  | nil => rfl
  | cons c cs ih => rw [calls, call_of_protocolError h, Trace.bind_some, ih, nil_append]

/-- **Over all calls, the events are the first part of a sequence of messages, of which each has a
beginning, headers, the end of the headers, contents and an end, possibly followed by an error;
after it there is none.** -/
theorem calls_grammatical (mode : ParseMode) (cs cs' : List (Bytes × ℕ)) :
    Grammatical ((init mode).calls cs).1 ∧
      ((∃ code, .protocolError code ∈ ((init mode).calls cs).1) →
        ((init mode).calls (cs ++ cs')).1 = ((init mode).calls cs).1) := by
  obtain ⟨φ, hrun, hφ⟩ := calls_runs (init mode) cs
  refine ⟨(Phase.Accepts.run (φ := .idle) ⟨[], rfl⟩ hrun).grammatical, ?_⟩
  rintro ⟨code, hmem⟩
  rw [calls_append]
  generalize (init mode).calls cs = t at hrun hφ hmem
  obtain ⟨es, - | p⟩ := t
  · rfl
  · have hfailed : p.state = .protocolError := by
      have hphase := (hφ p rfl).trans (run_protocolError hrun hmem)
      generalize p.state = s at hphase
      cases s <;> first | rfl | cases hphase
    rw [Trace.bind_some, calls_of_protocolError hfailed, append_nil]

theorem feed_calls (data : Bytes) (s : Parser × ℕ) : ∃ cs, s.1.calls cs =
    ((feed data s).1, (feed data s).2.map Prod.fst) := by
  fun_induction feed data s with
  | case1 s es p' h =>
    refine ⟨[(data, s.2)], ?_⟩
    rw [calls, call, h]
    rfl
  | case2 s es p' n h hcond r ih =>
    obtain ⟨cs, hcs⟩ := ih
    refine ⟨(data, s.2) :: cs, ?_⟩
    rw [calls, call, h, Trace.bind_some, hcs]
  | case3 s es p' n h hcond =>
    refine ⟨[(data, s.2)], ?_⟩
    rw [calls, call, h, Trace.bind_some]
    exact Prod.ext (append_nil es) rfl

theorem parse_calls (mode : ParseMode) (fragments : List Bytes) : ∃ cs, (init mode).calls cs =
    ((parse mode fragments).1, (parse mode fragments).2.map Prod.fst) := by
  have key : ∀ (data : Bytes) (s : Parser × ℕ), ∃ cs, s.1.calls cs =
      ((Trace.feed feed data s fragments).1, (Trace.feed feed data s fragments).2.map Prod.fst) := by
    induction fragments with
    | nil => exact fun data s ↦ ⟨[], rfl⟩
    | cons f fs ih =>
      intro data s
      obtain ⟨cs, hcs⟩ := feed_calls (data ++ f) s
      rw [Trace.feed]
      generalize feed (data ++ f) s = t at hcs
      obtain ⟨es, - | s'⟩ := t
      · exact ⟨cs, hcs⟩
      · obtain ⟨cs', hcs'⟩ := ih (data ++ f) s'
        refine ⟨cs ++ cs', ?_⟩
        rw [calls_append, hcs]
        simp only [map_some, Trace.bind_some]
        rw [hcs']
  exact key [] (init mode, 0)

end

end Parser

end Xzero.Http.Http1
