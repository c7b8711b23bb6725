import Xzero.Http.Http1.Fragments

/-!
# Responses that end with the connection

A response with neither a `Content-Length` nor chunks has content until the connection is closed.
The parser takes it as long as it gets to see the content: at the end of a fragment it gives a
response up that it has only seen the headers of. So **the content is delivered if and only if no
fragment ends right after the headers**, or there is no content (`Parser.delivers_iff`).
-/

namespace Xzero.Http.Http1

open List Util Trace State

/-- In the content, or after an error. -/
def State.hasContent (s : State) : Bool := s.phase = .contents || s.phase = .failed

/-- Behind the first byte of the content. -/
def State.pastBegin (s : State) : Bool := s.hasContent && s ≠ .contentBegin

namespace Parser

theorem hasContent_of_isBulk {p : Parser} (h : p.isBulk = true) : p.state.hasContent = true := by
  rcases isBulk_iff.1 h with (hs | hs) | ⟨hs, -⟩ <;> rw [hs] <;> rfl

theorem isBulk_eq_false {p : Parser} (h : p.state.hasContent = false) : p.isBulk = false := by
  by_contra hbulk
  cases h.symm.trans (hasContent_of_isBulk (Bool.not_eq_false _ ▸ hbulk))

section

variable {p p' p₁ : Parser} {data d t block body : Bytes} {pos n k : ℕ} {c : UInt8}
  {es head : List Event} {s : Parser × ℕ}

/-! ### The content has begun -/

theorem pastBegin_of_next (hcontent : p.state.hasContent = true)
    (h : p.iterate data pos c = .next p' n es) :
    p'.state.pastBegin = true := by
  rcases hs : p.state
  all_goals first | (rw [hs] at hcontent; cases hcontent; done) | skip
  all_goals
    simp only [iterate, hs, expect, readChunkSize, readDigit, nextChar, badRequest] at h
    repeat' split at h
    all_goals cases h
    all_goals first | rfl | exact congrArg pastBegin hs

theorem hasContent_of_reached (hs : p.state.hasContent = true)
    (h : p.loop data pos = (es, .reached p₁ k)) :
    p₁.state.hasContent = true ∧ (pos < data.length → p₁.state ≠ .contentBegin) := by
  revert hs
  refine loop_reached_induction h ?_ fun hk hs ↦ ⟨hs, fun hlt ↦ absurd hlt (not_lt.2 hk)⟩
  intro p pos p' n es es' _ hit hrest _ ih hs
  have hpast := pastBegin_of_next hs hit
  simp only [pastBegin, Bool.and_eq_true, decide_eq_true_eq] at hpast
  obtain ⟨hcontent, hbegin⟩ := ih hpast.1
  refine ⟨hcontent, fun _ ↦ ?_⟩
  by_cases hpos' : pos + n < data.length
  · exact hbegin hpos'
  · cases (loop_of_le (not_lt.1 hpos')).symm.trans hrest
    exact hpast.2

theorem hasContent_eq_false (h : p.loop data pos = (es, .reached p₁ k))
    (hp₁ : p₁.state.hasContent = false) : p.state.hasContent = false := by
  by_contra hs
  cases hp₁.symm.trans (hasContent_of_reached (Bool.not_eq_false _ ▸ hs) h).1

/-- **A header block can be cut**: the parser comes to the cut, whatever follows, and goes on there.
-/
theorem loop_cut (h : p.loop (d ++ t) pos = (es, .reached p₁ k)) (hp₁ : p₁.state = .contentBegin)
    (hv : p.Valid pos) (hpos : pos ≤ d.length) :
    ∃ (es₁ es₂ : List Event) (p₂ : Parser), es = es₁ ++ es₂ ∧
      p₂.loop (d ++ t) d.length = (es₂, .reached p₁ k) ∧ p₂.Valid d.length ∧ p₂.mode = p.mode ∧
      ∀ t', p.loop (d ++ t') pos =
        (es₁ ++ (p₂.loop (d ++ t') d.length).1, (p₂.loop (d ++ t') d.length).2) := by
  revert hv hpos
  refine loop_reached_induction h ?_ ?_
  · intro p pos p' n es es' hpos' hit _ hloop ih hv hpos
    rcases hpos.lt_or_eq with hlt | rfl
    · have hbulk : p.isBulk = false := by
        by_contra hbulk
        have hcontent := hasContent_of_isBulk (Bool.not_eq_false _ ▸ hbulk)
        exact (hasContent_of_reached hcontent hloop).2 hpos' hp₁
      have hit' : p.iterate d pos d[pos] = .next p' n es := by
        rw [← iterate_append hv hpos hbulk, ← hit, getElem_append_left hlt]
      obtain ⟨hmode', -, hvalid⟩ := iterate_next hit'
      obtain ⟨es₁, es₂, p₂, rfl, hloop, hv₂, hmode₂, hall⟩ :=
        ih (hvalid hv) (add_le_of_next hlt hit')
      refine ⟨es ++ es₁, es₂, p₂, (append_assoc ..).symm, hloop, hv₂, hmode₂.trans hmode', fun t' ↦ ?_⟩
      have hlt' : pos < (d ++ t').length := by
        rw [length_append]
        omega
      have hit₁ : p.iterate (d ++ t') pos (d ++ t')[pos] = .next p' n es := by
        rw [iterate_append hv hpos hbulk, getElem_append_left hlt, hit']
      rw [loop_of_next hlt' hit₁, hall t', append_assoc]
    · exact ⟨[], _, p, rfl, hloop, hv, rfl, fun t' ↦ rfl⟩
  · intro hk hv hpos
    obtain rfl : k = d.length := by
      rw [length_append] at hk
      omega
    exact ⟨[], [], p₁, rfl, loop_of_le hk, hv, rfl, fun t' ↦ rfl⟩

/-! ### The end of a fragment -/

/-- What the end of a fragment ends. -/
def endsWithFragment (p : Parser) : Prop :=
  p.state = .contentBegin ∧ p.contentLength.slt 0 = true ∧ p.chunked = false ∧ p.mode ≠ .message

theorem not_endsWithFragment (h : p.state ≠ .contentBegin) : ¬p.endsWithFragment :=
  fun hend ↦ h hend.1

section

variable (h : s.1.loop data s.2 = (es, .reached p data.length)) (hpos : s.2 ≤ data.length)
include h hpos

theorem feed_of_end (hend : p.endsWithFragment) : feed data s =
      (es ++ [.messageEnd], some ({ p with state := .messageBegin }, data.length)) := by
  rw [feed, parseFragment, h]
  simp only [if_pos (show _ ∧ _ from hend), Nat.add_sub_cancel' hpos, Nat.lt_irrefl, and_false,
    if_false]

theorem feed_of_not_end (hend : ¬p.endsWithFragment) :
    feed data s = (es, some (p, data.length)) := by
  rw [feed, parseFragment, h]
  simp only [if_neg (show ¬(_ ∧ _) from hend), Nat.add_sub_cancel' hpos, Nat.lt_irrefl, and_false,
    if_false]

/-! ### Content until the end -/

end

theorem iterate_contentEndless (hs : p.state = .contentEndless) :
    p.iterate data pos c = .next p (data.length - pos) [.content (data.drop pos)] := by
  simp only [iterate, hs]

theorem feed_contentEndless (hs : p.state = .contentEndless) (f : Bytes) :
    feed (data ++ f) (p, data.length) =
      (if f = [] then [] else [.content f], some (p, (data ++ f).length)) := by
  refine feed_of_not_end ?_ (length_append ▸ Nat.le_add_right _ _)
    (not_endsWithFragment (hs ▸ nofun))
  split
  · next hf => rw [hf, append_nil, loop_of_le le_rfl]
  · next hf =>
    have hpos : data.length < (data ++ f).length := by
      rw [length_append]
      exact Nat.lt_add_of_pos_right (length_pos_of_ne_nil hf)
    rw [loop_of_next hpos (iterate_contentEndless hs), Nat.add_sub_cancel' hpos.le,
      loop_of_le le_rfl, drop_left]
    rfl

theorem feed_fragments_contentEndless (hs : p.state = .contentEndless) (fragments : List Bytes)
    (data : Bytes) : ∃ (cs : List Bytes) (s' : Parser × ℕ), cs.flatten = fragments.flatten ∧
      Trace.feed feed data (p, data.length) fragments = (cs.map .content, some s') := by
  induction fragments generalizing data with
  | nil => exact ⟨[], _, rfl, rfl⟩
  | cons f fragments ih =>
    obtain ⟨cs, s', hcs, hfeed⟩ := ih (data ++ f)
    rw [Trace.feed, feed_contentEndless hs, Trace.bind_some, hfeed]
    by_cases hf : f = []
    · exact ⟨cs, s', by rw [hcs, hf, flatten_cons, nil_append], by rw [if_pos hf]; rfl⟩
    · exact ⟨f :: cs, s', by rw [flatten_cons, hcs, flatten_cons], by rw [if_neg hf]; rfl⟩

/-! ### Header blocks -/

/-- The headers of a response, after which there is content until the end: there is no
`Content-Length`, and it does not come in chunks. -/
structure HeaderBlock (block : Bytes) (head : List Event) (p : Parser) : Prop where
  /-- The parser takes them, up to the beginning of the content. -/
  loop_eq : (init .response).loop block 0 = (head, .reached p block.length)
  state_eq : p.state = .contentBegin
  slt : p.contentLength.slt 0 = true
  chunked_eq : p.chunked = false

/-- The content is delivered as that of the response, and nothing else is. -/
def Delivers (head : List Event) (body : Bytes) (t : Trace Event (Parser × ℕ)) : Prop :=
  t.2 ≠ none ∧ ∃ cs : List Bytes, cs.flatten = body ∧
    (t.1 = head ++ cs.map .content ∨ t.1 = head ++ cs.map .content ++ [.messageEnd])

variable {fragments : List Bytes}

theorem feed_fragments_nil (hend : ¬p.endsWithFragment)
    (h : fragments.flatten = []) (data : Bytes) :
    Trace.feed feed data (p, data.length) fragments = ([], some (p, data.length)) := by
  induction fragments with
  | nil => rfl
  | cons f fragments ih =>
    obtain ⟨rfl, h⟩ := append_eq_nil_iff.1 h
    rw [Trace.feed, append_nil, feed_of_not_end (loop_of_le le_rfl) le_rfl hend, bind_some, ih h]
    rfl

theorem loop_contentBegin (hend : p.endsWithFragment) (ht : t ≠ []) :
    p.loop (data ++ t) data.length =
      ([.content t], .reached { p with state := .contentEndless } (data ++ t).length) := by
  have hpos : data.length < (data ++ t).length := by
    rw [length_append]
    exact Nat.lt_add_of_pos_right (length_pos_of_ne_nil ht)
  have hit : p.iterate (data ++ t) data.length (data ++ t)[data.length] =
      .next { p with state := .contentEndless } 0 [] := by
    obtain ⟨hs, hslt, hchunked, -⟩ := hend
    simp only [iterate, hs, hslt, hchunked, Bool.not_true, Bool.false_eq_true, if_false]
  rw [loop_of_next hpos hit, Nat.add_zero, loop_of_next hpos (iterate_contentEndless rfl),
    Nat.add_sub_cancel' hpos.le, loop_of_le le_rfl, drop_left]
  rfl

/-- The fragments from somewhere inside the headers on: the headers are given up where a fragment
ends with them, or all content is delivered. -/
theorem feed_block (hend : p.endsWithFragment) {q : Parser} (ht : t ≠ []) (hv : q.Valid data.length)
    (hloop : q.loop (data ++ t) data.length = (head, .reached p (data ++ t).length))
    (hflatten : fragments.flatten = t ++ body) :
    (∃ (fs₁ fs₂ : List Bytes) (r : Trace Event (Parser × ℕ)), fragments = fs₁ ++ fs₂ ∧
      fs₁.flatten = t ∧ r = .feed feed (data ++ t)
        ({ p with state := .messageBegin }, (data ++ t).length) fs₂ ∧
      Trace.feed feed data (q, data.length) fragments = (head ++ .messageEnd :: r.1, r.2)) ∨
    ((∀ fs₁ fs₂ : List Bytes, fragments = fs₁ ++ fs₂ → fs₁.flatten ≠ t) ∧
      ∃ (cs : List Bytes) (s' : Parser × ℕ), cs.flatten = body ∧
        Trace.feed feed data (q, data.length) fragments = (head ++ cs.map .content, some s')) := by
  induction fragments generalizing data t q head with
  | nil => exact absurd (append_eq_nil_iff.1 hflatten.symm).1 ht
  | cons f fragments ih =>
    have hle : ∀ u : Bytes, data.length ≤ (data ++ u).length := fun u ↦
      length_append ▸ Nat.le_add_right _ _
    have hbehind (hno : ∀ fs₁ fs₂, fragments = fs₁ ++ fs₂ → f ++ fs₁.flatten ≠ t) :
        ∀ fs₁ fs₂, f :: fragments = fs₁ ++ fs₂ → fs₁.flatten ≠ t := by
      intro fs₁ fs₂ hfs₁ hflat
      rcases cons_eq_append_iff.1 hfs₁ with ⟨rfl, -⟩ | ⟨fs₁', rfl, hfs₁'⟩
      · exact ht hflat.symm
      · exact hno fs₁' fs₂ hfs₁' hflat
    rw [flatten_cons] at hflatten
    rw [Trace.feed]
    by_cases hft : f = t
    · -- The fragment ends with the headers.
      subst hft
      refine .inl ⟨[f], fragments, _, rfl, append_nil f, rfl, ?_⟩
      rw [feed_of_end hloop (hle f) hend, bind_some, append_assoc]
      rfl
    obtain ⟨a, rfl, hfs⟩ | ⟨b, rfl, hb⟩ := append_eq_append_iff.1 hflatten
    · -- It ends inside the headers.
      have ha : a ≠ [] := fun ha ↦ hft (by rw [ha, append_nil])
      rw [← append_assoc] at hloop
      obtain ⟨es₁, es₂, p₂, rfl, hloop₂, hv₂, -, hall⟩ := loop_cut hloop hend.1 hv (hle f)
      have hfirst : q.loop (data ++ f) data.length = (es₁, .reached p₂ (data ++ f).length) := by
        have h := hall []
        simp only [append_nil, loop_of_le (le_refl (data ++ f).length)] at h
        exact h
      have hnot : ¬p₂.endsWithFragment := by
        intro hend₂
        refine (hasContent_of_reached (by rw [hend₂.1]; rfl) hloop₂).2 ?_ hend.1
        have hlength : (data ++ f ++ a).length = (data ++ f).length + a.length :=
          length_append
        have := length_pos_of_ne_nil ha
        omega
      rw [feed_of_not_end hfirst (hle f) hnot, bind_some, ← append_assoc]
      rcases ih ha hv₂ hloop₂ hfs with ⟨fs₁, fs₂, r, rfl, rfl, hr, hfeed⟩ | ⟨hno, cs, s', hcs, hfeed⟩
      · refine .inl ⟨f :: fs₁, fs₂, r, rfl, rfl, hr, ?_⟩
        rw [hfeed, append_assoc]
      · refine .inr ⟨hbehind fun fs₁ fs₂ hfs₁ hflat ↦ ?_, cs, s', hcs, ?_⟩
        · exact hno fs₁ fs₂ hfs₁ (append_cancel_left hflat)
        · rw [hfeed, append_assoc]
    · -- It has content behind the headers.
      have hb' : b ≠ [] := fun hb ↦ hft (by rw [hb, append_nil])
      have hloop' : q.loop (data ++ (t ++ b)) data.length = (head ++ [.content b],
          .reached { p with state := .contentEndless } (data ++ (t ++ b)).length) := by
        have hloop₀ := hloop
        rw [← append_nil (data ++ t)] at hloop₀
        obtain ⟨es₁, es₂, p₂, rfl, hloop₂, -, -, hall⟩ := loop_cut hloop₀ hend.1 hv (hle t)
        rw [append_nil, loop_of_le le_rfl] at hloop₂
        cases hloop₂
        rw [← append_assoc, hall b, loop_contentBegin hend hb', append_nil]
      have hnot : ¬({ p with state := .contentEndless } : Parser).endsWithFragment :=
        not_endsWithFragment (by simp)
      rw [feed_of_not_end hloop' (hle _) hnot, bind_some]
      obtain ⟨cs, s', hcs, hfeed⟩ := feed_fragments_contentEndless
        (p := { p with state := .contentEndless }) rfl fragments (data ++ (t ++ b))
      refine .inr ⟨hbehind fun fs₁ fs₂ _ hflat ↦ ?_, b :: cs, s', ?_, ?_⟩
      · rw [append_assoc, append_right_eq_self, append_eq_nil_iff] at hflat
        exact hb' hflat.1
      · rw [flatten_cons, hcs, hb]
      · rw [hfeed, append_assoc]
        rfl

theorem HeaderBlock.endsWithFragment (h : HeaderBlock block head p) : p.endsWithFragment := by
  refine ⟨h.state_eq, h.slt, h.chunked_eq, ?_⟩
  have hreach := loop_steps (init .response) block 0
  rw [h.loop_eq] at hreach
  obtain ⟨hmode, -⟩ := steps_sound hreach.1
  exact hmode.trans_ne nofun

theorem HeaderBlock.ne_nil (h : HeaderBlock block head p) : block ≠ [] := by
  rintro rfl
  have hloop := h.loop_eq
  rw [loop_of_le (Nat.zero_le 0)] at hloop
  cases hloop
  cases h.state_eq

theorem HeaderBlock.parse_cases (h : HeaderBlock block head p)
    (hflatten : fragments.flatten = block ++ body) :
    (∃ (fs₁ fs₂ : List Bytes) (r : Trace Event (Parser × ℕ)), fragments = fs₁ ++ fs₂ ∧
      fs₁.flatten = block ∧
      r = .feed feed block ({ p with state := .messageBegin }, block.length) fs₂ ∧
      parse .response fragments = (head ++ .messageEnd :: r.1, r.2)) ∨
    ((∀ fs₁ fs₂ : List Bytes, fragments = fs₁ ++ fs₂ → fs₁.flatten ≠ block) ∧
      ∃ (cs : List Bytes) (s' : Parser × ℕ), cs.flatten = body ∧
        parse .response fragments = (head ++ cs.map .content, some s')) := by
  have hloop : (init .response).loop ([] ++ block) ([] : Bytes).length =
      (head, .reached p ([] ++ block).length) := h.loop_eq
  exact feed_block h.endsWithFragment h.ne_nil (valid_init _) hloop hflatten

theorem Delivers.body_eq_nil {r : Trace Event (Parser × ℕ)}
    (h : Delivers head body (head ++ .messageEnd :: r.1, r.2)) : body = [] := by
  obtain ⟨-, cs, hcs, hevents⟩ := h
  rcases cs with - | ⟨c, cs⟩
  · exact hcs.symm
  · simp only [map_cons, append_assoc, append_cancel_left_eq, cons_append,
      cons.injEq, reduceCtorEq, false_and, or_self] at hevents

/-- **The content of a response is delivered if and only if there is none, or no fragment ends right
after the headers.** -/
theorem delivers_iff {fragments : List Bytes} (h : HeaderBlock block head p)
    (hflatten : fragments.flatten = block ++ body) :
    Delivers head body (parse .response fragments) ↔
      body = [] ∨ ∀ fs₁ fs₂ : List Bytes, fragments = fs₁ ++ fs₂ → fs₁.flatten ≠ block := by
  rcases h.parse_cases hflatten with ⟨fs₁, fs₂, r, rfl, hblock, hr, hparse⟩ | ⟨hno, cs, s', hcs, hparse⟩
  · rw [hparse]
    refine ⟨fun hdel ↦ Or.inl hdel.body_eq_nil, ?_⟩
    rintro (rfl | hno)
    · have hnil : fs₂.flatten = [] := by
        rw [flatten_append, hblock, append_nil] at hflatten
        exact append_cancel_left (hflatten.trans (append_nil _).symm)
      have hidle : ¬({ p with state := .messageBegin } : Parser).endsWithFragment :=
        not_endsWithFragment nofun
      rw [feed_fragments_nil hidle hnil] at hr
      rw [hr]
      exact ⟨nofun, [], rfl, Or.inr (by rw [map_nil, append_nil])⟩
    · exact absurd hblock (hno fs₁ fs₂ rfl)
  · rw [hparse]
    exact ⟨fun _ ↦ Or.inr hno, fun _ ↦ ⟨nofun, cs, hcs, Or.inl rfl⟩⟩

/-- The headers of a response, without any. -/
def okBlock : Bytes :=
  ascii ['H', 'T', 'T', 'P', '/', '1', '.', '1', ' ', '2', '0', '0', ' ', 'O', 'K'] ++ [CR, LF, CR, LF]

theorem headerBlock_ok : HeaderBlock okBlock
    [.responseBegin .version11 200 (ascii ['O', 'K']), .headerEnd]
    { init .response with
      state := .contentBegin, versionMajor := 1, versionMinor := 1, code := 200, message := ⟨13, 2⟩ } :=
  ⟨loop_of_loopFor 40 rfl, rfl, rfl, rfl⟩

/-- Content that comes with the headers. -/
theorem delivers_ok : Delivers [.responseBegin .version11 200 (ascii ['O', 'K']), .headerEnd]
    (ascii ['a', 'b']) (parse .response [okBlock ++ ascii ['a'], ascii ['b']]) := by
  refine (delivers_iff headerBlock_ok (by simp [ascii])).2 (.inr ?_)
  intro fs₁ fs₂ hfs hflatten
  have hlength := congrArg length hflatten
  rcases fs₁ with - | ⟨f, fs₁⟩
  · cases hlength
  · rw [cons_append, cons.injEq] at hfs
    rw [← hfs.1, flatten_cons, append_assoc, length_append] at hlength
    exact absurd (Nat.add_eq_left.1 hlength) nofun

/-- Content that comes after the headers is not that of the response. -/
theorem not_delivers : ¬∀ (block body : Bytes) (head : List Event) (p : Parser)
    (fragments : List Bytes), HeaderBlock block head p → fragments.flatten = block ++ body →
    Delivers head body (parse .response fragments) := by
  intro hall
  have hflatten : [okBlock, ascii ['a']].flatten = okBlock ++ ascii ['a'] := by
    rw [flatten_cons, flatten_singleton]
  have hdel := hall _ _ _ _ _ headerBlock_ok hflatten
  rcases headerBlock_ok.parse_cases hflatten with ⟨-, -, r, -, -, -, hparse⟩ | ⟨hno, -⟩
  · rw [hparse] at hdel
    cases hdel.body_eq_nil
  · exact hno [okBlock] [ascii ['a']] rfl flatten_singleton

end

end Parser

end Xzero.Http.Http1
