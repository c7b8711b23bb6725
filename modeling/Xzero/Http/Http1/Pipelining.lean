import Xzero.Http.Http1.Relocation

/-!
# Pipelined requests

Requests may follow each other in a buffer. The parser starts each of them with what it has left
from those before: the length of the content and the version are set again, but that there were
chunks is never forgotten. **The events are those of the requests on their own if and only if no
request without chunks follows one with chunks** (`Parser.pipelines_iff`). Otherwise the parser
waits for chunks that the request does not have, and what follows cannot be taken for them by
chance.
-/

namespace Xzero.Http.Http1

open List Util

namespace Parser

section

variable {p p' p₁ q : Parser} {data pre t body : Bytes} {pos n k : ℕ} {c : UInt8}
  {es head : List Event}

/-! ### Chunks that are not there -/

/-- Content as it is delivered in one part. -/
def contentsOf (body : Bytes) : List Event := if body = [] then [] else [.content body]

/-- The events go on with content and the end of the message. -/
def EndsWith (body : Bytes) (r : List Event × Exit) : Prop :=
  ∃ F G, r.1 ++ F = contentsOf body ++ .messageEnd :: G ∧ ∀ p k, r.2 = .reached p k → F = []

theorem endsWith_next (hpos : pos < data.length) (hit : p.iterate data pos data[pos] = .next q n [])
    (h : EndsWith body (p.loop data pos)) : EndsWith body (q.loop data (pos + n)) := by
  rw [loop_of_next hpos hit] at h
  exact h

theorem EndsWith.lt_length (h : EndsWith body (p.loop data pos)) : pos < data.length := by
  by_contra hpos
  rw [loop_of_le (not_lt.1 hpos)] at h
  obtain ⟨F, G, hF, hreached⟩ := h
  rw [hreached _ _ rfl] at hF
  cases (append_eq_nil_iff.1 hF.symm).2

theorem not_endsWith_badRequest (hpos : pos < data.length)
    (hit : p.iterate data pos data[pos] = q.badRequest) : ¬EndsWith body (p.loop data pos) := by
  rw [loop_of_next hpos hit]
  rintro ⟨F, G, hF, -⟩
  rw [contentsOf] at hF
  split at hF <;> cases hF

theorem endsWith_expect {byte : UInt8} {s : State} (hpos : pos < data.length)
    (hit : p.iterate data pos data[pos] = q.expect data[pos] byte s)
    (h : EndsWith body (p.loop data pos)) :
    data[pos] = byte ∧ EndsWith body (loop { q with state := s } data (pos + 1)) := by
  by_cases hc : data[pos] = byte
  · rw [expect, if_pos hc] at hit
    exact ⟨hc, endsWith_next hpos hit h⟩
  · rw [expect, if_neg hc] at hit
    exact absurd h (not_endsWith_badRequest hpos hit)

theorem endsWith_contentChunkCr3 (hs : p.state = .contentChunkCr3)
    (h : EndsWith body (p.loop data pos)) : ∃ rest, data.drop pos = body ++ CR :: rest := by
  have hpos := h.lt_length
  obtain ⟨hc, h₁⟩ := endsWith_expect hpos (iterate_contentChunkCr3 hs) h
  have hbody : body = [] := by
    have hpos₁ := h₁.lt_length
    have hit : iterate { p with state := .contentChunkLf3 } data (pos + 1) data[pos + 1] = _ :=
      iterate_contentChunkLf3 rfl
    by_contra hbody
    by_cases hlf : data[pos + 1] = LF
    · rw [if_neg (not_not.2 hlf)] at hit
      rw [loop_of_done hpos₁ hit] at h₁
      obtain ⟨F, G, hF, -⟩ := h₁
      rw [contentsOf, if_neg hbody] at hF
      cases hF
    · rw [if_pos hlf] at hit
      exact not_endsWith_badRequest hpos₁ hit h₁
  subst hbody
  exact ⟨data.drop (pos + 1), by rw [← hc, drop_eq_getElem_cons hpos, nil_append]⟩

theorem sub_ofNat_eq_zero {x : BitVec 64} (h : x.toNat = n) : x - BitVec.ofNat 64 n = 0 := by
  rw [← h, BitVec.ofNat_toNat, BitVec.setWidth_eq, BitVec.sub_self]
  rfl

theorem endsWith_contentChunkBody (hs : p.state = .contentChunkBody) (hlength : p.contentLength ≠ 0)
    (h : EndsWith body (p.loop data pos)) : ∃ rest, data.drop pos = body ++ CR :: rest := by
  have hpos := h.lt_length
  obtain ⟨n, hn⟩ : ∃ n, n = min p.contentLength.toNat (data.length - pos) := ⟨_, rfl⟩
  rw [loop_of_next hpos (iterate_contentChunkBody hs hlength), ← hn] at h
  obtain ⟨F, G, hF, hreached⟩ := h
  -- The chunk is the content.
  have hbody : body ≠ [] := by
    intro hbody
    rw [contentsOf, if_pos hbody] at hF
    cases hF
  rw [contentsOf, if_neg hbody, append_assoc] at hF
  obtain ⟨hchunk, hF'⟩ := cons.inj hF
  rw [Event.content.injEq] at hchunk
  have h₁ : EndsWith [] (loop { p with contentLength := p.contentLength - BitVec.ofNat 64 n } data
      (pos + n)) := ⟨F, G, hF', hreached⟩
  have hpos₁ := h₁.lt_length
  have hzero := sub_ofNat_eq_zero (by omega : p.contentLength.toNat = n)
  have hit : iterate { p with contentLength := p.contentLength - BitVec.ofNat 64 n } data (pos + n)
      data[pos + n] = _ := iterate_contentChunkBody_of_zero hs hzero
  obtain ⟨hc, -⟩ := endsWith_expect hpos₁ hit h₁
  refine ⟨data.drop (pos + n + 1), ?_⟩
  rw [← hchunk, ← hc, ← drop_eq_getElem_cons hpos₁, ← drop_drop, take_append_drop]

theorem endsWith_contentChunkLf1 (hs : p.state = .contentChunkLf1)
    (h : EndsWith body (p.loop data pos)) :
    ∃ rest, data.drop pos = LF :: (body ++ CR :: rest) := by
  have hpos := h.lt_length
  obtain ⟨hc, h₁⟩ := endsWith_expect hpos (iterate_contentChunkLf1 hs) h
  have hrest : ∃ rest, data.drop (pos + 1) = body ++ CR :: rest := by
    split at h₁
    · next hlength =>
      exact endsWith_contentChunkBody (p := { p with state := .contentChunkBody }) rfl hlength h₁
    · exact endsWith_contentChunkCr3 (p := { p with state := .contentChunkCr3 }) rfl h₁
  obtain ⟨rest, hrest⟩ := hrest
  exact ⟨rest, by rw [← hrest, ← hc, ← drop_eq_getElem_cons hpos]⟩

theorem readChunkSize_cases (p : Parser) (c : UInt8) :
    (c = CR ∧ p.readChunkSize c = { p with state := .contentChunkLf1 }.nextChar) ∨
      (isXDigit c = true ∧ ∃ d, p.readChunkSize c = p.readDigit d) ∨
      p.readChunkSize c = p.badRequest := by
  rw [readChunkSize]
  split_ifs with hcr hdigit hlower hupper
  · exact .inl ⟨hcr, rfl⟩
  · exact .inr (.inl ⟨by simp [isXDigit, isDigit, hdigit.1, hdigit.2], _, rfl⟩)
  · exact .inr (.inl ⟨by simp [isXDigit, hlower.1, hlower.2], _, rfl⟩)
  · exact .inr (.inl ⟨by simp [isXDigit, hupper.1, hupper.2], _, rfl⟩)
  · exact .inr (.inr rfl)

theorem endsWith_contentChunkSize (hs : p.state = .contentChunkSize)
    (h : EndsWith body (p.loop data pos)) : ∃ digits rest, (∀ c ∈ digits, isXDigit c = true) ∧
      data.drop pos = digits ++ CR :: LF :: (body ++ CR :: rest) := by
  induction hn : data.length - pos generalizing p pos with
  | zero =>
    have := h.lt_length
    omega
  | succ n ih =>
    have hpos := h.lt_length
    have hdrop := drop_eq_getElem_cons hpos
    have hit : p.iterate data pos data[pos] = _ := iterate_contentChunkSize hs
    rcases readChunkSize_cases p data[pos] with ⟨hc, hread⟩ | ⟨hc, d, hread⟩ | hread
    · have h₁ := endsWith_next hpos (hit.trans hread) h
      obtain ⟨rest, hrest⟩ :=
        endsWith_contentChunkLf1 (p := { p with state := .contentChunkLf1 }) rfl h₁
      exact ⟨[], rest, nofun, by rw [hdrop, hrest, hc, nil_append]⟩
    · have h₁ := endsWith_next hpos (hit.trans hread) h
      obtain ⟨digits, rest, hdigits, hrest⟩ :=
        ih (p := { p with contentLength := p.contentLength * 16 + BitVec.ofNat 64 d }) hs h₁
          (by omega)
      exact ⟨data[pos] :: digits, rest, forall_mem_cons.2 ⟨hc, hdigits⟩, by
        rw [hdrop, hrest, cons_append]⟩
    · exact absurd h (not_endsWith_badRequest hpos (hit.trans hread))

/-- **Chunks that are waited for begin with a size.** -/
theorem endsWith_contentBegin (hs : p.state = .contentBegin) (hchunked : p.chunked = true)
    (h : EndsWith body (p.loop data pos)) : ∃ digits rest, (∀ c ∈ digits, isXDigit c = true) ∧
      data.drop pos = digits ++ CR :: LF :: (body ++ CR :: rest) := by
  have hpos := h.lt_length
  have h₁ := endsWith_next hpos (iterate_contentBegin_of_chunked hs hchunked) h
  have hpos₁ := h₁.lt_length
  have hit : iterate { p with state := .contentChunkSizeBegin } data pos data[pos] = _ :=
    iterate_contentChunkSizeBegin rfl
  by_cases hdigit : isXDigit data[pos] = true
  · -- The first digit is read as it is in the next state.
    rw [hdigit] at hit
    have hloop := loop_congr hpos (hit.trans (iterate_contentChunkSize rfl).symm)
    rw [add_zero, hloop] at h₁
    exact endsWith_contentChunkSize rfl h₁
  · rw [Bool.not_eq_true] at hdigit
    rw [hdigit] at hit
    exact absurd h₁ (not_endsWith_badRequest hpos hit)

def StartsRequest (data : Bytes) : Prop :=
  ∃ method rest, (∀ c ∈ method, isToken c = true) ∧ data = method ++ SP :: rest

/-- What follows the content of a request is not the rest of chunks: it would consist of digits and
line ends over and over, but a request has a blank before its first line end. -/
theorem not_startsRequest {digits rest post : Bytes} (hdigits : ∀ c ∈ digits, isXDigit c = true)
    (h : body ++ post = digits ++ CR :: LF :: (body ++ CR :: rest)) : ¬StartsRequest post := by
  rintro ⟨method, rest', hmethod, rfl⟩
  obtain ⟨m, hm⟩ : ∃ m, m = digits.length + 2 := ⟨_, rfl⟩
  have hline : digits ++ CR :: LF :: (body ++ CR :: rest) =
      (digits ++ [CR, LF]) ++ (body ++ CR :: rest) := by rw [append_assoc]; rfl
  have hlength : (digits ++ [CR, LF]).length = m := by rw [length_append, hm]; rfl
  rw [hline] at h
  have hline' : ∀ c ∈ digits ++ [CR, LF], isXDigit c = true ∨ c = CR ∨ c = LF := by
    intro c hc
    rcases mem_append.1 hc with hc | hc
    · exact .inl (hdigits c hc)
    · simpa using Or.inr hc
  -- The bytes up to the next line end, from the beginning on.
  have hall : ∀ i, i < m + body.length → ∃ c, (body ++ (method ++ SP :: rest'))[i]? = some c ∧
      (isXDigit c = true ∨ c = CR ∨ c = LF) := by
    intro i
    induction i using Nat.strong_induction_on with
    | _ i ih =>
      intro hi
      rcases lt_or_ge i m with hlt | hge
      · refine ⟨(digits ++ [CR, LF]).get ⟨i, hlength ▸ hlt⟩, ?_, hline' _ (get_mem _ _)⟩
        rw [h, getElem?_append_left (hlength ▸ hlt), get_eq_getElem, getElem?_eq_getElem]
      · obtain ⟨c, hc, hc'⟩ := ih (i - m) (by omega) (by omega)
        refine ⟨c, ?_, hc'⟩
        rw [getElem?_append_left (by omega)] at hc
        rw [h, getElem?_append_right (hlength ▸ hge), hlength, getElem?_append_left (by omega), hc]
  have hblank : (body ++ (method ++ SP :: rest'))[body.length + method.length]? = some SP := by
    rw [getElem?_append_right (Nat.le_add_right _ _), Nat.add_sub_cancel_left,
      getElem?_append_right le_rfl, Nat.sub_self]
    rfl
  rcases lt_or_ge method.length m with hlt | hge
  · obtain ⟨c, hc, hc'⟩ := hall (body.length + method.length) (by omega)
    rw [hblank] at hc
    cases hc
    revert hc'
    decide
  · have hcr : (body ++ (method ++ SP :: rest'))[body.length + m]? = some CR := by
      rw [h, getElem?_append_right (by omega), hlength, Nat.add_sub_cancel,
        getElem?_append_right le_rfl, Nat.sub_self]
      rfl
    rcases hge.lt_or_eq with hlt | heq
    · rw [getElem?_append_right (Nat.le_add_right _ _), Nat.add_sub_cancel_left,
        getElem?_append_left hlt] at hcr
      have htoken := hmethod CR (mem_of_getElem? hcr)
      revert htoken
      decide
    · rw [heq, hblank] at hcr
      cases hcr

/-! ### Requests -/

theorem lt_of_loop_done (h : p.loop data pos = (es, .done p₁ k)) : pos < data.length := by
  by_contra hpos
  rw [loop_of_le (not_lt.1 hpos)] at h
  cases h

theorem state_of_protocolError (hs : p.state = .protocolError)
    (h : p.loop data pos = (es, .done p₁ k)) : p₁.state = .protocolError := by
  have hpos := lt_of_loop_done h
  have hstop : p.iterate data pos data[pos] = .done p 0 [] := by simp only [iterate, hs]
  rw [loop_of_done hpos hstop] at h
  cases h
  exact hs

theorem state_of_badRequest (hpos : pos < data.length)
    (hit : p.iterate data pos data[pos] = q.badRequest)
    (h : p.loop data pos = (es, .done p₁ k)) : p₁.state = .protocolError := by
  rw [loop_of_next hpos hit] at h
  exact state_of_protocolError rfl (Prod.ext rfl (Prod.ext_iff.1 h).2)

theorem loop_requestMethod (hs : p.state = .requestMethod) (hp₁ : p₁.state = .messageBegin)
    (h : p.loop data pos = (es, .done p₁ k)) : StartsRequest (data.drop pos) := by
  induction hn : data.length - pos generalizing p pos es with
  | zero =>
    have := lt_of_loop_done h
    omega
  | succ n ih =>
    have hpos := lt_of_loop_done h
    have hdrop := drop_eq_getElem_cons hpos
    by_cases hsp : data[pos] = SP
    · exact ⟨[], data.drop (pos + 1), nofun, by rw [hdrop, hsp, nil_append]⟩
    by_cases htoken : isToken data[pos] = true
    · have hit : p.iterate data pos data[pos] = .next { p with method := p.method.shr 1 } 1 [] := by
        simp only [iterate, hs, if_neg hsp, if_pos htoken, nextChar]
      rw [loop_of_next hpos hit] at h
      obtain ⟨method, rest, hmethod, hrest⟩ := ih (p := { p with method := p.method.shr 1 }) hs
        (Prod.ext rfl (Prod.ext_iff.1 h).2) (by omega)
      exact ⟨data[pos] :: method, rest, forall_mem_cons.2 ⟨htoken, hmethod⟩, by
        rw [hdrop, hrest, cons_append]⟩
    · have hit : p.iterate data pos data[pos] = p.badRequest := by
        simp only [iterate, hs, if_neg hsp, if_neg htoken]
      cases (state_of_badRequest hpos hit h).symm.trans hp₁

/-- A request that the parser takes on its own, up to its end. -/
structure Complete (m : Bytes) (es : List Event) (p : Parser) : Prop where
  /-- The loop is left at the end of the request. -/
  loop_eq : (init .request).loop m 0 = (es, .done p m.length)
  state_eq : p.state = .messageBegin

variable {m : Bytes}

theorem Complete.length_pos (h : Complete m es p) : 0 < m.length :=
  lt_of_loop_done h.loop_eq

theorem Complete.startsRequest (h : Complete m es p) : StartsRequest m := by
  have hpos := h.length_pos
  have hloop := h.loop_eq
  have hbegin : (init .request).iterate m 0 m[0] =
      .next { init .request with state := .requestLineBegin } 0 [] := rfl
  rw [loop_of_next hpos hbegin] at hloop
  have hloop₁ : loop { init .request with state := .requestLineBegin } m 0 =
      (_, .done p m.length) := Prod.ext rfl (Prod.ext_iff.1 hloop).2
  have hline : iterate { init .request with state := .requestLineBegin } m 0 m[0] = if isToken m[0] then
      .next { init .request with state := .requestMethod, method := ⟨0, 1⟩ } 1 []
      else badRequest { init .request with state := .requestLineBegin } := by
    simp only [iterate, nextChar]
  by_cases htoken : isToken m[0] = true
  · rw [if_pos htoken] at hline
    rw [loop_of_next hpos hline] at hloop₁
    obtain ⟨method, rest, hmethod, hrest⟩ := loop_requestMethod rfl h.state_eq
      (Prod.ext rfl (Prod.ext_iff.1 hloop₁).2)
    refine ⟨m[0] :: method, rest, forall_mem_cons.2 ⟨htoken, hmethod⟩, ?_⟩
    rw [cons_append, ← hrest, ← drop_eq_getElem_cons hpos, drop_zero]
  · rw [if_neg htoken] at hline
    cases (state_of_badRequest hpos hline hloop₁).symm.trans h.state_eq

/-! ### Chunks that came before -/

/-- If the iteration leaves the loop, nothing has changed. -/
def LeavesUnchanged (p : Parser) : Iteration → Prop
  | .done p' _ _ => p' = p
  | _ => True

theorem iterate_outside (hs : p.state.hasContent = false) (hs' : p.state ≠ .headerEndLf) :
    (p.iterate data pos c).after.state.phase ≠ .contents ∧
      p.LeavesUnchanged (p.iterate data pos c) := by
  have hself : p.state.phase ≠ .contents := by
    intro hphase
    rw [State.hasContent, hphase] at hs
    cases hs
  have hlws : p.lwsNext.1.phase ≠ .contents := (phase_of_afterLws p.lwsNext.2).1.trans_ne (by decide)
  have hlf : p.lwsNull.1.phase ≠ .contents := by
    obtain ⟨s, h⟩ := p.lwsNull
    revert h
    cases s <;> decide
  rcases hstate : p.state
  case headerEndLf => exact absurd hstate hs'
  all_goals first | (rw [hstate] at hs; cases hs; done) | skip
  all_goals
    simp only [iterate, hstate, expect, readMajor, readMinor, readStatusCode, nextChar, badRequest]
    repeat' split
    all_goals
      refine ⟨?_, by trivial⟩
      first
      | exact hlws
      | exact hlf
      | exact hself
      | exact (by decide : Phase.idle ≠ .contents)
      | exact (by decide : Phase.headers ≠ .contents)
      | exact (by decide : Phase.failed ≠ .contents)

theorem loop_content (hs : p.state = .contentBegin) (hchunked : p.chunked = false)
    (hmode : p.mode = .request) (hv : p.Valid pos) (h : p.loop data pos = (es, .done p₁ data.length)) :
    es = contentsOf (data.drop pos) ++ [.messageEnd] := by
  have hpos := lt_of_loop_done h
  have hbegin : p.iterate data pos data[pos] = .next { p with state := .content } 0 [] := by
    have hslt : p.contentLength.slt 0 = false := by
      by_contra hslt
      rw [Bool.not_eq_false] at hslt
      exact not_endOfFragment hv hmode ⟨hs, hslt, hchunked, hmode ▸ nofun⟩
    simp only [iterate, hs, hchunked, hslt, Bool.not_false, Bool.false_eq_true, if_false, if_true]
  obtain ⟨n, hn⟩ : ∃ n, n = min p.contentLength.toNat (data.length - pos) := ⟨_, rfl⟩
  have hit : iterate { p with state := .content } data pos data[pos] =
      if p.contentLength - BitVec.ofNat 64 n = 0 then
        .done { p with contentLength := p.contentLength - BitVec.ofNat 64 n, state := .messageBegin } n
          [.content ((data.drop pos).take n), .messageEnd]
      else .next { p with contentLength := p.contentLength - BitVec.ofNat 64 n, state := .content } n
        [.content ((data.drop pos).take n)] := by
    simp only [iterate, hn]
  rw [loop_of_next hpos hbegin, Nat.add_zero, nil_append] at h
  by_cases hzero : p.contentLength - BitVec.ofNat 64 n = 0
  · rw [if_pos hzero] at hit
    rw [loop_of_done hpos hit] at h
    simp only [Prod.mk.injEq, Exit.done.injEq] at h
    obtain ⟨rfl, -, hlength⟩ := h
    have hne : data.drop pos ≠ [] := by
      rw [drop_eq_getElem_cons hpos]
      exact cons_ne_nil _ _
    rw [contentsOf, if_neg hne, take_of_length_le]
    · rfl
    · rw [length_drop]
      omega
  · rw [if_neg hzero] at hit
    rw [loop_of_next hpos hit] at h
    have hpos₁ := lt_of_loop_done (Prod.ext rfl (Prod.ext_iff.1 h).2)
    exact absurd (sub_ofNat_eq_zero (by omega)) hzero

/-- **A request without chunks that comes after chunks is taken up to its content.** -/
theorem loop_leaks (h : Tracks pre.length true p p') (hv : p.Valid pos)
    (hs : p.state.hasContent = false) (hp₁ : p₁.state = .messageBegin) (hchunked : p₁.chunked = false)
    (hloop : p.loop data pos = (es, .done p₁ data.length)) :
    ∃ (head : List Event) (front body : Bytes) (q : Parser), data = front ++ body ∧
      es = head ++ (contentsOf body ++ [.messageEnd]) ∧ q.state = .contentBegin ∧ q.chunked = true ∧
      p'.loop (pre ++ data ++ t) (pre.length + pos) =
        (head ++ (q.loop (pre ++ data ++ t) (pre.length + front.length)).1,
          (q.loop (pre ++ data ++ t) (pre.length + front.length)).2) := by
  have hends : ∀ {p p' : Parser} {pos : ℕ} (hpos : pos < data.length), Tracks pre.length true p p' →
      p.state = .headerEndLf → data[pos] = LF → p'.loop (pre ++ data ++ t) (pre.length + pos) =
        ([.headerEnd] ++
          (loop { p' with state := .contentBegin } (pre ++ data ++ t) (pre.length + (pos + 1))).1,
          (loop { p' with state := .contentBegin } (pre ++ data ++ t) (pre.length + (pos + 1))).2) := by
    intro p p' pos hpos h hend hlf
    have hexpected : p'.isContentExpected = true := by
      rw [isContentExpected, h.chunked_eq, Bool.or_true, Bool.or_true, Bool.true_or]
    have hs' : p'.state = .headerEndLf := h.state_eq.trans hend
    have hit : p'.iterate (pre ++ data ++ t) (pre.length + pos)
        ((pre ++ data ++ t).get ⟨pre.length + pos, lt_relocated pre t hpos⟩) =
        .next { p' with state := .contentBegin } 1 [.headerEnd] := by
      rw [get_relocated pre t hpos, iterate_headerEndLf hs', if_pos hlf, if_pos hexpected]
    rw [loop_of_next (lt_relocated pre t hpos) hit, Nat.add_assoc]
  revert h hv hs p'
  show ∀ p', _
  refine loop_done_induction hloop ?_ ?_
  · intro p pos q n es es' hpos hit _ hloop₁ hloop' ih p' h hv hs
    obtain ⟨hmode, -, hvalid⟩ := iterate_next hit
    by_cases hend : p.state = .headerEndLf
    · have hchunked' : p.chunked = false :=
        (loop_done_chunked (by rw [hend]; rfl) hloop').symm.trans hchunked
      have hit' := hit
      rw [iterate_headerEndLf hend] at hit'
      split_ifs at hit' with hlf hexpected
      · cases hit'
        have hcontent := loop_content (p := { p with state := .contentBegin }) rfl hchunked' h.isRequest
          (hvalid hv) hloop₁
        refine ⟨[.headerEnd], data.take (pos + 1), data.drop (pos + 1), { p' with state := .contentBegin },
          (take_append_drop _ _).symm, ?_, rfl, ?_, ?_⟩
        · rw [← hcontent]
        · exact h.chunked_eq.trans (Bool.or_true _)
        · rw [hends hpos h hend hlf, length_take, Nat.min_eq_left hpos]
      · have hbad : p.iterate data pos data[pos] = _ := (iterate_headerEndLf hend).trans (if_neg hlf)
        cases (state_of_badRequest hpos hbad hloop').symm.trans hp₁
    · have hbegin : p.state ≠ .contentBegin := by
        intro hs'
        rw [hs'] at hs
        cases hs
      have hbulk := isBulk_eq_false hs
      have hfollow := iterate_relocates (c := data[pos]) (t := t) h hv hpos
        (fun hs' ↦ (hs'.elim hend hbegin).elim) fun hbulk' ↦ absurd hbulk' (by simp [hbulk])
      rw [hit, ← get_relocated pre t hpos] at hfollow
      obtain ⟨q', hx, hq⟩ := hfollow.next
      have hphase : (p.iterate data pos data[pos]).after.state.phase ≠ .contents :=
        (iterate_outside hs hend).1
      rw [hit] at hphase
      have hcontent : q.state.hasContent = false := by
        by_contra hcontent
        rw [Bool.not_eq_false, State.hasContent, Bool.or_eq_true, decide_eq_true_eq,
          decide_eq_true_eq] at hcontent
        have hfailed : q.state = .protocolError := by
          have := hcontent.resolve_left hphase
          generalize q.state = s at this
          cases s <;> first | rfl | cases this
        cases (state_of_protocolError hfailed hloop₁).symm.trans hp₁
      obtain ⟨head, front, body, q₁, hdata, rfl, hq₁, hq₁', hloop₂⟩ :=
        ih _ hq (hvalid hv) hcontent
      refine ⟨es ++ head, front, body, q₁, hdata, (append_assoc ..).symm, hq₁, hq₁', ?_⟩
      rw [loop_of_next (lt_relocated pre t hpos) hx, Nat.add_assoc, hloop₂]
      exact Prod.ext (append_assoc ..).symm rfl
  · intro p pos n es hpos hit hlength _ p' h hv hs
    by_cases hend : p.state = .headerEndLf
    · rw [iterate_headerEndLf hend] at hit
      split_ifs at hit with hlf hexpected
      · cases hit
        refine ⟨[.headerEnd], data, [], { p' with state := .contentBegin }, (append_nil _).symm, rfl,
          rfl, ?_, ?_⟩
        · exact h.chunked_eq.trans (Bool.or_true _)
        · rw [hends hpos h hend hlf, hlength]
      · cases hit
    · have hsame : p.LeavesUnchanged (p.iterate data pos data[pos]) := (iterate_outside hs hend).2
      rw [hit] at hsame
      cases hsame
      simp only [iterate, hp₁, h.isRequest] at hit
      cases hit

/-! ### Requests in a row -/

/-- The request comes in chunks, as the parser sees it on its own. -/
def isChunked (m : Bytes) : Bool :=
  match ((init .request).loop m 0).2 with
  | .done p _ => p.chunked
  | _ => false

theorem Complete.isChunked_eq (h : Complete m es p) : isChunked m = p.chunked := by
  rw [isChunked, h.loop_eq]

theorem Complete.begin_eq (h : Complete m es p) :
    (init .request).begin.loop m 0 = (es, .done p m.length) :=
  (ready_init.loop_begin h.length_pos).symm.trans h.loop_eq

theorem valid_begin (mode : ParseMode) : (init mode).begin.Valid 0 :=
  ⟨le_rfl, le_rfl, le_rfl, le_rfl, le_rfl, nofun, nofun⟩

variable {b : Bool}

theorem Complete.loop_relocates (h : Complete m es p) (hp : Ready b p')
    (hb : b = false ∨ p.chunked = true) (pre t : Bytes) :
    ∃ p₁, p'.loop (pre ++ m ++ t) pre.length = (es, .done p₁ (pre.length + m.length)) ∧
      Ready (b || p.chunked) p₁ := by
  obtain ⟨p₁, hloop, htracks⟩ := Parser.loop_relocates (hp.tracks pre.length)
    (valid_begin _) hb h.begin_eq
  exact ⟨p₁, (hp.loop_begin (lt_relocated pre t h.length_pos)).trans hloop, htracks.ready h.state_eq⟩

theorem feed_events (data : Bytes) (s : Parser × ℕ) : ∃ F, (feed data s).1 = (s.1.loop data s.2).1 ++ F ∧
    ∀ p k, (s.1.loop data s.2).2 = .reached p k → ¬p.endsWithFragment → F = [] := by
  have hreach := loop_steps s.1 data s.2
  rw [feed, parseFragment]
  generalize s.1.loop data s.2 = r at hreach
  obtain ⟨es, ⟨p, k⟩ | ⟨p, k⟩ | p⟩ := r
  · have hlength : data.length ≤ k := hreach.2
    have hstop : ¬(0 < k - s.2 ∧ s.2 + (k - s.2) < data.length) := by omega
    by_cases hend : p.endsWithFragment
    · simp only [if_pos (show _ ∧ _ from hend), if_neg hstop]
      exact ⟨[.messageEnd], rfl, fun _ _ h hnot ↦ by cases h; exact absurd hend hnot⟩
    · simp only [if_neg (show ¬(_ ∧ _) from hend), if_neg hstop]
      exact ⟨[], (append_nil es).symm, fun _ _ _ _ ↦ rfl⟩
  · simp only
    split
    · exact ⟨(feed data (p, s.2 + (k - s.2))).1, rfl, fun _ _ h ↦ by cases h⟩
    · exact ⟨[], (append_nil es).symm, fun _ _ h ↦ by cases h⟩
  · exact ⟨[], (append_nil es).symm, fun _ _ h ↦ by cases h⟩

theorem feed_of_done {s : Parser × ℕ} (h : s.1.loop data s.2 = (es, .done p k)) (hk : s.2 < k) :
    feed data s = if k < data.length then (es ++ (feed data (p, k)).1, (feed data (p, k)).2)
      else (es, some (p, k)) := by
  rw [feed, parseFragment, h]
  have hadd : s.2 + (k - s.2) = k := Nat.add_sub_cancel' hk.le
  simp only [hadd, Nat.sub_pos_of_lt hk, true_and]

theorem Complete.parse_eq (h : Complete m es p) : (parse .request [m]).1 = es := by
  have hfeed : feed m (init .request, 0) = (es, some (p, m.length)) := by
    rw [feed_of_done h.loop_eq h.length_pos, if_neg (lt_irrefl _)]
  rw [parse, Trace.feed, nil_append, hfeed, Trace.bind_some]
  exact append_nil es

/-- No request without chunks comes after chunks. -/
def Orderly : Bool → List Bytes → Prop
  | _, [] => True
  | b, m :: ms => (b = true → isChunked m = true) ∧ Orderly (b || isChunked m) ms

theorem orderly_iff_pairwise {b : Bool} {ms : List Bytes} : Orderly b ms ↔
    (b = true → ∀ m ∈ ms, isChunked m = true) ∧
      ms.Pairwise fun m m' ↦ isChunked m = true → isChunked m' = true := by
  induction ms generalizing b with
  | nil => simp [Orderly]
  | cons m ms ih =>
    rw [Orderly, ih, pairwise_cons, forall_mem_cons, Bool.or_eq_true]
    tauto

variable {ms : List Bytes}

/-- **A request without chunks after chunks is not delivered.** -/
theorem Complete.not_delivered (h : Complete m es p) (hp : Ready true p')
    (hchunked : p.chunked = false) (hms : ∀ m ∈ ms, ∃ es p, Complete m es p) (pre : Bytes)
    (rest : List Event) :
    (feed (pre ++ m ++ ms.flatten) (p', pre.length)).1 ≠ es ++ rest := by
  intro heq
  obtain ⟨head, front, body, q, rfl, rfl, hq, hq', hloop⟩ := loop_leaks (t := ms.flatten)
    (hp.tracks pre.length) (valid_begin _) rfl h.state_eq hchunked h.begin_eq
  have hpos := lt_relocated pre ms.flatten h.length_pos
  rw [add_zero] at hloop hpos
  rw [← hp.loop_begin hpos] at hloop
  obtain ⟨F, hF, hreached⟩ := feed_events (pre ++ (front ++ body) ++ ms.flatten) (p', pre.length)
  have hends : EndsWith body
      (q.loop (pre ++ (front ++ body) ++ ms.flatten) (pre.length + front.length)) := by
    refine ⟨F, rest, ?_, fun p₂ k hp₂ ↦ hreached p₂ k (by rw [hloop, hp₂]) ?_⟩
    · rw [heq, hloop] at hF
      rw [append_assoc head, append_assoc head] at hF
      rw [← append_cancel_left hF, append_assoc]
      rfl
    · have hchunked₂ : (q.loop (pre ++ (front ++ body) ++ ms.flatten)
          (pre.length + front.length)).2.after.chunked = q.chunked :=
        loop_chunked (by rw [hq]; rfl)
      rw [hp₂, hq'] at hchunked₂
      intro hend
      cases hchunked₂.symm.trans hend.2.2.1
  obtain ⟨digits, rest', hdigits, hdrop⟩ := endsWith_contentBegin hq hq' hends
  rw [show pre ++ (front ++ body) ++ ms.flatten = (pre ++ front) ++ (body ++ ms.flatten) by
    simp only [append_assoc], ← length_append, drop_left] at hdrop
  refine not_startsRequest hdigits hdrop ?_
  rcases ms with - | ⟨m₂, ms⟩
  · have hlength := congrArg length hdrop
    simp only [flatten_nil, append_nil, length_append, length_cons] at hlength
    omega
  · obtain ⟨es₂, p₂, h₂⟩ := hms m₂ mem_cons_self
    obtain ⟨method, rest₂, hmethod, rfl⟩ := h₂.startsRequest
    exact ⟨method, rest₂ ++ ms.flatten, hmethod, by rw [flatten_cons, append_assoc]; rfl⟩

theorem feed_requests (hms : ∀ m ∈ ms, ∃ es p, Complete m es p) (hp : Ready b p) (pre : Bytes) :
    (feed (pre ++ ms.flatten) (p, pre.length)).1 = ms.flatMap (fun m ↦ (parse .request [m]).1) ↔
      Orderly b ms := by
  induction ms generalizing b p pre with
  | nil =>
    have hend : ¬p.endsWithFragment := not_endsWithFragment (hp.state_eq ▸ nofun)
    rw [flatten_nil, append_nil, feed_of_not_end (loop_of_le le_rfl) le_rfl hend]
    exact ⟨fun _ ↦ trivial, fun _ ↦ rfl⟩
  | cons m ms ih =>
    obtain ⟨⟨es, p₁, hm⟩, hms'⟩ := forall_mem_cons.1 hms
    rw [flatten_cons, ← append_assoc, flatMap_cons, hm.parse_eq, Orderly, hm.isChunked_eq]
    by_cases hb : b = false ∨ p₁.chunked = true
    · obtain ⟨p₂, hloop, hready⟩ := hm.loop_relocates hp hb pre ms.flatten
      have hrest := ih hms' hready (pre ++ m)
      have hchunked : b = true → p₁.chunked = true := fun hb' ↦
        hb.resolve_left (hb' ▸ nofun)
      rw [feed_of_done hloop (Nat.lt_add_of_pos_right hm.length_pos), ← length_append]
      split
      · simp only [append_cancel_left_eq, hrest, and_iff_right hchunked]
      · next hlength =>
        have hnil : ms = [] := by
          rcases ms with - | ⟨m₂, ms⟩
          · rfl
          · obtain ⟨es₂, p₃, h₂⟩ := hms' m₂ mem_cons_self
            have := h₂.length_pos
            simp only [length_append, flatten_cons] at hlength
            omega
        subst hnil
        simp only [flatMap_nil, append_nil, Orderly, and_true, true_iff]
        exact hchunked
    · rw [not_or, Bool.not_eq_false, Bool.not_eq_true] at hb
      obtain ⟨rfl, hchunked⟩ := hb
      refine ⟨fun h ↦ absurd h (hm.not_delivered hp hchunked hms' pre _), fun h ↦ ?_⟩
      cases hchunked.symm.trans (h.1 rfl)

/-- The events are those of the requests on their own. -/
def Pipelines (ms : List Bytes) : Prop :=
  (parse .request [ms.flatten]).1 = ms.flatMap fun m ↦ (parse .request [m]).1

theorem pipelines_iff_orderly (hms : ∀ m ∈ ms, ∃ es p, Complete m es p) :
    Pipelines ms ↔ Orderly false ms := by
  have hparse : (parse .request [ms.flatten]).1 = (feed ([] ++ ms.flatten) (init .request, 0)).1 := by
    show ((feed ([] ++ ms.flatten) (init .request, 0)).bind .pure).1 = _
    rw [Trace.bind_pure]
  rw [Pipelines, hparse]
  exact feed_requests hms ready_init []

/-- **Requests in a row are delivered as they are on their own if and only if none without chunks
comes after one with chunks.** -/
theorem pipelines_iff {ms : List Bytes} (hms : ∀ m ∈ ms, ∃ es p, Complete m es p) :
    Pipelines ms ↔ ms.Pairwise fun m m' ↦ isChunked m = true → isChunked m' = true := by
  rw [pipelines_iff_orderly hms, orderly_iff_pairwise]
  exact and_iff_right nofun

/-- A request in chunks, of which there is none. -/
def chunkedRequest : Bytes :=
  ascii ['P', ' ', '/', ' ', 'H', 'T', 'T', 'P', '/', '1', '.', '1'] ++ [CR, LF] ++
    ascii ['T', 'r', 'a', 'n', 's', 'f', 'e', 'r', '-', 'E', 'n', 'c', 'o', 'd', 'i', 'n', 'g', ':',
      'c', 'h', 'u', 'n', 'k', 'e', 'd'] ++ [CR, LF, CR, LF] ++ ascii ['0'] ++ [CR, LF, CR, LF]

/-- The loop is left at the end of a request. -/
def completes (b : Bool) (m : Bytes) : List Event × Exit → Bool
  | (_, .done p k) => k = m.length && p.state = .messageBegin && p.chunked = b
  | _ => false

theorem complete_of_loopFor (fuel : ℕ)
    (h : (loopFor fuel (init .request) m 0).any (completes b m) = true) :
    (∃ es p, Complete m es p) ∧ isChunked m = b := by
  obtain ⟨⟨es, x⟩, hr, hx⟩ := Option.any_eq_true _ _ |>.1 h
  have hloop := loop_of_loopFor fuel hr
  obtain ⟨p, k⟩ | ⟨p, k⟩ | p := x
  · cases hx
  · simp only [completes, Bool.and_eq_true, decide_eq_true_eq] at hx
    obtain ⟨⟨rfl, hs⟩, hchunked⟩ := hx
    have hcomplete : Complete m es p := ⟨hloop, hs⟩
    exact ⟨⟨es, p, hcomplete⟩, hcomplete.isChunked_eq.trans hchunked⟩
  · cases hx

theorem complete_chunkedRequest :
    (∃ es p, Complete chunkedRequest es p) ∧ isChunked chunkedRequest = true :=
  complete_of_loopFor 80 rfl

theorem complete_getRequest : (∃ es p, Complete getRequest es p) ∧ isChunked getRequest = false :=
  complete_of_loopFor 40 rfl

/-- Chunks come last. -/
theorem pipelines_get_chunked : Pipelines [getRequest, chunkedRequest] := by
  have hms : ∀ m ∈ [getRequest, chunkedRequest], ∃ es p, Complete m es p :=
    forall_mem_cons.2 ⟨complete_getRequest.1, forall_mem_singleton.2 complete_chunkedRequest.1⟩
  refine (pipelines_iff hms).2 (pairwise_pair.2 fun hchunked ↦ ?_)
  cases complete_getRequest.2.symm.trans hchunked

/-- The request after chunks is not delivered. -/
theorem not_pipelines : ¬∀ ms : List Bytes, (∀ m ∈ ms, ∃ es p, Complete m es p) → Pipelines ms := by
  intro hall
  have hms : ∀ m ∈ [chunkedRequest, getRequest], ∃ es p, Complete m es p :=
    forall_mem_cons.2 ⟨complete_chunkedRequest.1, forall_mem_singleton.2 complete_getRequest.1⟩
  have horderly := (pipelines_iff_orderly hms).1 (hall _ hms)
  have hchunked := horderly.2.1 (by rw [complete_chunkedRequest.2]; rfl)
  cases complete_getRequest.2.symm.trans hchunked

end

end Parser

end Xzero.Http.Http1
