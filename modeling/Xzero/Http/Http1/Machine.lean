import Xzero.Http.Http1.ParserSpec

/-!
# The HTTP/1 parser as a machine

The iterations of the parser's loop, one after the other, are the steps of a machine on what there
is in the buffer (`Parser.machine`). The end of a message is not an end of the machine: the rest of
the buffer is given to the parser again. **The loop makes steps of the machine**
(`Parser.loop_steps`), and so does a caller that gives the parser what it has left
(`Parser.feed_ends`), as far as the end of a fragment does not matter and there is no request
without a version.
-/

namespace Xzero.Http.Http1

open Util

namespace Parser

/-- The iterations on a buffer; it ends where nothing can be done, or with an exception. -/
def machine (data : Bytes) : Machine (Parser × ℕ) Event (Option (Parser × ℕ)) where
  step s :=
    if h : s.2 < data.length then
      match s.1.iterate data s.2 data[s.2] with
      | .next p n es => .ok (es, (p, s.2 + n))
      | .done p n es => if 0 < n then .ok (es, (p, s.2 + n)) else .error (some s)
      | .raise _ => .error none
    else .error (some s)

section

variable {p p' : Parser} {data : Bytes} {pos n : ℕ} {es : List Event} {s s' : Parser × ℕ}

section

variable (hpos : pos < data.length)
include hpos

theorem step_of_next (h : p.iterate data pos data[pos] = .next p' n es) :
    (machine data).step (p, pos) = .ok (es, (p', pos + n)) := by
  simp only [machine, hpos, h, dif_pos]

theorem step_of_done (h : p.iterate data pos data[pos] = .done p' n es) (hn : 0 < n) :
    (machine data).step (p, pos) = .ok (es, (p', pos + n)) := by
  simp only [machine, hpos, h, dif_pos, if_pos hn]

theorem step_of_rest (h : p.iterate data pos data[pos] = .done p' 0 es) :
    (machine data).step (p, pos) = .error (some (p, pos)) := by
  simp only [machine, hpos, h, dif_pos, lt_irrefl, if_false]

theorem step_of_raise (h : p.iterate data pos data[pos] = .raise p') :
    (machine data).step (p, pos) = .error none := by
  simp only [machine, hpos, h, dif_pos]

end

theorem step_of_le (hpos : data.length ≤ pos) :
    (machine data).step (p, pos) = .error (some (p, pos)) := by
  simp only [machine, not_lt.2 hpos, dif_neg, not_false_iff]

theorem iterate_of_step (h : (machine data).step s = .ok (es, s')) :
    ∃ (hpos : s.2 < data.length) (p' : Parser) (n : ℕ), s' = (p', s.2 + n) ∧
      (s.1.iterate data s.2 data[s.2] = .next p' n es ∨
        (s.1.iterate data s.2 data[s.2] = .done p' n es ∧ 0 < n)) := by
  by_cases hpos : s.2 < data.length
  · refine ⟨hpos, ?_⟩
    simp only [machine, hpos, dif_pos] at h
    split at h
    · next p n es hit =>
      cases h
      exact ⟨p, n, rfl, .inl hit⟩
    · next p n es hit =>
      split at h
      · next hn =>
        cases h
        exact ⟨p, n, rfl, .inr ⟨hit, hn⟩⟩
      · cases h
    · cases h
  · rw [step_of_le (not_lt.1 hpos)] at h
    cases h

theorem step_error {r : Option (Parser × ℕ)} (h : (machine data).step s = .error r) :
    r = some s ∨ (r = none ∧ ∃ (hpos : s.2 < data.length) (p' : Parser),
      s.1.iterate data s.2 data[s.2] = .raise p') := by
  by_cases hpos : s.2 < data.length
  · simp only [machine, hpos, dif_pos] at h
    split at h
    · cases h
    · split at h
      · cases h
      · cases h
        exact .inl rfl
    · next p' hit =>
      cases h
      exact .inr ⟨rfl, hpos, p', hit⟩
  · rw [step_of_le (not_lt.1 hpos)] at h
    cases h
    exact .inl rfl

theorem step_sound (h : (machine data).step s = .ok (es, s')) :
    s'.1.mode = s.1.mode ∧ s.1.state.phase.run es = some s'.1.state.phase ∧
      (s.1.Valid s.2 → s'.1.Valid s'.2) ∧ s.2 ≤ s'.2 ∧ s'.2 ≤ data.length := by
  obtain ⟨hpos, p', n, rfl, hit | ⟨hit, -⟩⟩ := iterate_of_step h
  · obtain ⟨hmode, hrun, hvalid⟩ := iterate_next hit
    exact ⟨hmode, hrun, hvalid, Nat.le_add_right _ _, add_le_of_next hpos hit⟩
  · obtain ⟨hmode, hrun, hvalid⟩ := iterate_done hit
    exact ⟨hmode, hrun, hvalid, Nat.le_add_right _ _, add_le_of_done hpos hit⟩

theorem steps_sound (h : (machine data).Steps s es s') :
    s'.1.mode = s.1.mode ∧ s.1.state.phase.run es = some s'.1.state.phase ∧
      (s.1.Valid s.2 → s'.1.Valid s'.2) ∧ s.2 ≤ s'.2 ∧ (s.2 ≤ data.length → s'.2 ≤ data.length) := by
  induction h with
  | refl s => exact ⟨rfl, rfl, id, le_rfl, id⟩
  | head hstep _ ih =>
    obtain ⟨hmode, hrun, hvalid, hle, hle'⟩ := step_sound hstep
    obtain ⟨hmode₁, hrun₁, hvalid₁, hle₁, hle₁'⟩ := ih
    refine ⟨hmode₁.trans hmode, ?_, hvalid₁ ∘ hvalid, hle.trans hle₁, fun _ ↦ hle₁' hle'⟩
    rw [Phase.run_append, hrun]
    exact hrun₁

/-! ### The loop -/

theorem loop_of_next (hpos : pos < data.length) (h : p.iterate data pos data[pos] = .next p' n es) :
    p.loop data pos = (es ++ (p'.loop data (pos + n)).1, (p'.loop data (pos + n)).2) := by
  rw [loop, dif_pos hpos]
  split <;> simp_all

theorem loop_of_done (hpos : pos < data.length) (h : p.iterate data pos data[pos] = .done p' n es) :
    p.loop data pos = (es, .done p' (pos + n)) := by
  rw [loop, dif_pos hpos]
  split <;> simp_all

theorem loop_of_raise (hpos : pos < data.length) (h : p.iterate data pos data[pos] = .raise p') :
    p.loop data pos = ([], .raised p') := by
  rw [loop, dif_pos hpos]
  split <;> simp_all

theorem loop_of_le (hpos : data.length ≤ pos) : p.loop data pos = ([], .reached p pos) := by
  rw [loop, dif_neg (not_lt.2 hpos)]

section

variable {motive : Parser → ℕ → List Event → Prop} {p₁ : Parser} {k : ℕ}

/-- Induction on a loop that takes all data. -/
@[elab_as_elim]
theorem loop_reached_induction (h : p.loop data pos = (es, .reached p₁ k))
    (next : ∀ p pos q n es es' (hpos : pos < data.length),
      p.iterate data pos data[pos] = .next q n es → q.loop data (pos + n) = (es', .reached p₁ k) →
      p.loop data pos = (es ++ es', .reached p₁ k) → motive q (pos + n) es' →
      motive p pos (es ++ es'))
    (stop : data.length ≤ k → motive p₁ k []) : motive p pos es := by
  fun_induction loop p data pos generalizing es with
  | case1 p pos hpos q n es' hit r =>
    rename_i ih
    obtain ⟨rfl, hr⟩ := Prod.ext_iff.1 h
    exact next p pos q n es' r.1 hpos hit (Prod.ext rfl hr)
      ((loop_of_next hpos hit).trans (Prod.ext rfl hr)) (ih (Prod.ext rfl hr))
  | case2 | case3 => cases h
  | case4 p pos hpos =>
    cases h
    exact stop (not_lt.1 hpos)

/-- Induction on a loop that ends with a message. -/
@[elab_as_elim]
theorem loop_done_induction (h : p.loop data pos = (es, .done p₁ k))
    (next : ∀ p pos q n es es' (hpos : pos < data.length),
      p.iterate data pos data[pos] = .next q n es → pos + n < data.length →
      q.loop data (pos + n) = (es', .done p₁ k) → p.loop data pos = (es ++ es', .done p₁ k) →
      motive q (pos + n) es' → motive p pos (es ++ es'))
    (done : ∀ p pos n es (hpos : pos < data.length), p.iterate data pos data[pos] = .done p₁ n es →
      pos + n = k → p.loop data pos = (es, .done p₁ k) → motive p pos es) : motive p pos es := by
  fun_induction loop p data pos generalizing es with
  | case1 p pos hpos q n es' hit r =>
    rename_i ih
    obtain ⟨rfl, hr⟩ := Prod.ext_iff.1 h
    have hrest : q.loop data (pos + n) = (r.1, .done p₁ k) := Prod.ext rfl hr
    refine next p pos q n es' r.1 hpos hit ?_ hrest
      ((loop_of_next hpos hit).trans (Prod.ext rfl hr)) (ih hrest)
    by_contra hle
    cases (Prod.ext_iff.1 ((loop_of_le (not_lt.1 hle)).symm.trans hrest)).2
  | case2 p pos hpos q n es' hit =>
    cases h
    exact done p pos n es' hpos hit rfl (loop_of_done hpos hit)
  | case3 | case4 => cases h

end

theorem loop_congr (hpos : pos < data.length)
    (h : p.iterate data pos data[pos] = p'.iterate data pos data[pos]) :
    p.loop data pos = p'.loop data pos := by
  rcases hit : p'.iterate data pos data[pos] with ⟨q, n, es⟩ | ⟨q, n, es⟩ | q
  · rw [loop_of_next hpos hit, loop_of_next hpos (h.trans hit)]
  · rw [loop_of_done hpos hit, loop_of_done hpos (h.trans hit)]
  · rw [loop_of_raise hpos hit, loop_of_raise hpos (h.trans hit)]

/-- The loop, of no more than a number of iterations. -/
def loopFor : ℕ → Parser → Bytes → ℕ → Option (List Event × Exit)
  | 0, _, _, _ => none
  | fuel + 1, p, data, pos =>
    if hpos : pos < data.length then
      match p.iterate data pos data[pos] with
      | .next p' n es => (loopFor fuel p' data (pos + n)).map fun r ↦ (es ++ r.1, r.2)
      | .done p' n es => some (es, .done p' (pos + n))
      | .raise p' => some ([], .raised p')
    else some ([], .reached p pos)

theorem loop_of_loopFor (fuel : ℕ) {r : List Event × Exit} (h : loopFor fuel p data pos = some r) :
    p.loop data pos = r := by
  induction fuel generalizing p pos r with
  | zero => cases h
  | succ fuel ih =>
    rw [loopFor] at h
    split at h
    · next hpos =>
      split at h
      · next p' n es hit =>
        obtain ⟨r', hr', rfl⟩ := Option.map_eq_some_iff.1 h
        rw [loop_of_next hpos hit, ih hr']
      · next p' n es hit =>
        cases h
        exact loop_of_done hpos hit
      · next p' hit =>
        cases h
        exact loop_of_raise hpos hit
    · next hpos =>
      cases h
      exact loop_of_le (not_lt.1 hpos)

def Reaches (data : Bytes) (s : Parser × ℕ) (es : List Event) : Exit → Prop
  | .reached p pos => (machine data).Steps s es (p, pos) ∧ data.length ≤ pos
  | .done p pos => ∃ (s' : Parser × ℕ) (es₁ es₂ : List Event) (hpos : s'.2 < data.length) (n : ℕ),
    es = es₁ ++ es₂ ∧ pos = s'.2 + n ∧ (machine data).Steps s es₁ s' ∧
      s'.1.iterate data s'.2 data[s'.2] = .done p n es₂
  | .raised _ => (machine data).Ends s es none

theorem Reaches.head {x : Exit} {es' : List Event} (h : (machine data).step s = .ok (es, s'))
    (hx : Reaches data s' es' x) : Reaches data s (es ++ es') x := by
  cases x with
  | reached p pos => exact ⟨.head h hx.1, hx.2⟩
  | done p pos =>
    obtain ⟨s₁, es₁, es₂, hpos, n, rfl, rfl, hsteps, hit⟩ := hx
    exact ⟨s₁, es ++ es₁, es₂, hpos, n, (List.append_assoc ..).symm, rfl, .head h hsteps, hit⟩
  | raised p => exact (Machine.ends_iff_of_ok h).2 ⟨es', rfl, hx⟩

/-- **The loop makes steps of the machine.** -/
theorem loop_steps (p : Parser) (data : Bytes) (pos : ℕ) :
    Reaches data (p, pos) (p.loop data pos).1 (p.loop data pos).2 := by
  fun_induction loop p data pos with
  | case1 p pos hpos p' n es hit r ih => exact Reaches.head (step_of_next hpos hit) ih
  | case2 p pos hpos p' n es hit => exact ⟨(p, pos), [], es, hpos, n, rfl, rfl, .refl _, hit⟩
  | case3 p pos hpos p' hit => exact ⟨_, .refl _, step_of_raise hpos hit⟩
  | case4 p pos hpos => exact ⟨.refl _, not_lt.1 hpos⟩

/-! ### Calls -/

/-- No request line that the parser comes to ends without a version. -/
def CarriesVersions (data : Bytes) (s : Parser × ℕ) : Prop :=
  ∀ es s', (machine data).Steps s es s' → ¬(s'.1.state = .request09Lf ∧ data[s'.2]? = some LF)

theorem CarriesVersions.steps (h : CarriesVersions data s) (hsteps : (machine data).Steps s es s') :
    CarriesVersions data s' :=
  fun _ _ hsteps' ↦ h _ _ (hsteps.trans hsteps')

theorem not_endOfFragment (hv : p.Valid pos) (hmode : p.mode = .request) :
    ¬(p.state = .contentBegin ∧ p.contentLength.slt 0 = true ∧ p.chunked = false ∧
      p.mode ≠ .message) := by
  rintro ⟨hs, hslt, hchunked, -⟩
  have hexpected := hv.2.2.2.2.2.1 hs
  simp only [isContentExpected, hchunked, hmode, hslt, ne_eq, not_true_eq_false, decide_false,
    Bool.and_false, Bool.or_false] at hexpected
  rw [BitVec.slt_eq_decide, decide_eq_true_eq] at hexpected hslt
  omega

theorem parseFragment_steps (hv : s.1.Valid s.2) (hmode : s.1.mode = .request)
    (hver : CarriesVersions data s) (h : s.1.parseFragment data s.2 = (es, .returned p' n)) :
    (machine data).Steps s es (p', s.2 + n) ∧ (¬(0 < n ∧ s.2 + n < data.length) →
        (machine data).step (p', s.2 + n) = .error (some (p', s.2 + n))) := by
  have hreach := loop_steps s.1 data s.2
  rw [parseFragment] at h
  split at h
  · cases h
  · next es₁ p₁ pos₁ hloop =>
    cases h
    rw [hloop] at hreach
    obtain ⟨s', es₁, es₂, hpos, m, rfl, rfl, hsteps, hit⟩ := hreach
    obtain ⟨-, -, hvalid, hle, -⟩ := steps_sound hsteps
    have hlf : ¬(s'.1.state = .request09Lf ∧ data[s'.2] = LF) := fun hlf ↦
      hver _ _ hsteps ⟨hlf.1, by rw [List.getElem?_eq_getElem hpos, hlf.2]⟩
    have hadd : s.2 + (s'.2 + m - s.2) = s'.2 + m := by
      omega
    rw [hadd]
    rcases iterate_done_cases hpos (hvalid hv) hlf hit with hm | ⟨rfl, rfl, rfl⟩
    · refine ⟨hsteps.trans (.single (step_of_done hpos hit hm)), fun hstop ↦ step_of_le ?_⟩
      omega
    · rw [List.append_nil]
      exact ⟨hsteps, fun _ ↦ step_of_rest hpos hit⟩
  · next es₁ p₁ pos₁ hloop =>
    rw [hloop] at hreach
    obtain ⟨hsteps, hlength⟩ := hreach
    obtain ⟨hmode', -, hvalid, hle, -⟩ := steps_sound hsteps
    rw [if_neg (not_endOfFragment (hvalid hv) (hmode'.trans hmode))] at h
    cases h
    rw [Nat.add_sub_cancel' hle]
    exact ⟨hsteps, fun _ ↦ step_of_le hlength⟩

theorem parseFragment_raised (h : s.1.parseFragment data s.2 = (es, .raised p')) :
    (machine data).Ends s es none := by
  have hreach := loop_steps s.1 data s.2
  rw [parseFragment] at h
  split at h
  · next es₁ p₁ hloop =>
    cases h
    rw [hloop] at hreach
    exact hreach
  · cases h
  · split at h <;> cases h

/-- **A caller that gives the parser what it has left makes steps of the machine, to its end.** -/
theorem feed_ends (hv : s.1.Valid s.2) (hmode : s.1.mode = .request)
    (hver : CarriesVersions data s) : (machine data).Ends s (feed data s).1 (feed data s).2 := by
  fun_induction feed data s with
  | case1 s es p' h => exact parseFragment_raised h
  | case2 s es p' n h hcond r ih =>
    obtain ⟨hsteps, -⟩ := parseFragment_steps hv hmode hver h
    obtain ⟨hmode', -, hvalid, -⟩ := steps_sound hsteps
    exact hsteps.ends (ih (hvalid hv) (hmode'.trans hmode) (hver.steps hsteps))
  | case3 s es p' n h hcond =>
    obtain ⟨hsteps, hrest⟩ := parseFragment_steps hv hmode hver h
    exact ⟨_, hsteps, hrest hcond⟩

end

end Parser

end Xzero.Http.Http1
