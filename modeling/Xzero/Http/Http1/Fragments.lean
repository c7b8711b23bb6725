import Xzero.Http.Http1.Machine

/-!
# Fragments of a stream of requests

An iteration looks at one byte and at what the references of the parser refer to, which was taken
before (`Parser.iterate_append`). Only content is taken in larger parts, and where a fragment ends
inside it the listener gets it in two (`Parser.interrupts_machine`). Requests do not end with a
fragment. So **it does not matter to the listener how a stream of requests is cut into fragments**
(`Parser.parse_fragments`), apart from the parts in which it gets content. Requests without a
version are left out: the parser does not take the end of their line, and reports them again with
each call.
-/

namespace Xzero.Http.Http1

open List Util Event Bool Trace

/-! ### Adjacent content -/

namespace Event

/-- An event before others, where content is joined to content that follows. -/
def cons : Event → List Event → List Event
  | .content a, .content b :: es => .content (a ++ b) :: es
  | e, es => e :: es

/-- Adjacent content is concatenated. -/
def concatContents (es : List Event) : List Event := es.foldr cons []

theorem cons_content (a b : Bytes) (es : List Event) :
    cons (.content (a ++ b)) es = cons (.content a) (cons (.content b) es) := by
  rcases es with - | ⟨e, es⟩
  · rfl
  · cases e with
    | content c =>
      show _ = content (a ++ (b ++ c)) :: es
      rw [← append_assoc]
      rfl
    | _ => rfl

theorem foldr_cons (e : Event) (es es' : List Event) :
    (cons e es).foldr cons es' = cons e (es.foldr cons es') := by
  rcases es with - | ⟨e', es⟩
  · cases e <;> rfl
  · cases e with
    | content a =>
      cases e' with
      | content b => exact cons_content a b _
      | _ => rfl
    | _ => rfl

theorem concatContents_append (es es' : List Event) :
    concatContents (es ++ es') = (concatContents es).foldr cons (concatContents es') := by
  rw [concatContents, foldr_append]
  induction es with
  | nil => rfl
  | cons e es ih =>
    show cons e (es.foldr cons _) = (cons e (concatContents es)).foldr cons _
    rw [ih, foldr_cons]

/-- Events that are the same up to how content comes in. -/
def upToContents : Trace.Congruence Event where
  r es es' := concatContents es = concatContents es'
  equivalence := ⟨fun _ ↦ rfl, Eq.symm, Eq.trans⟩
  append h h' := by rw [concatContents_append, concatContents_append, h, h']

theorem upToContents_content (a b : Bytes) (es : List Event) :
    upToContents.r (.content (a ++ b) :: es) (.content a :: .content b :: es) :=
  cons_content a b _

end Event

/-! ### The bytes an iteration looks at -/

theorem Ref.bytes_append {r : Ref} {data : Bytes} (h : r.stop ≤ data.length) (t : Bytes) :
    r.bytes (data ++ t) = r.bytes data := by
  change r.offset + r.size ≤ data.length at h
  rw [bytes, bytes, drop_append_of_le_length (by omega), take_append_of_le_length]
  rw [length_drop]
  omega

namespace Parser

/-- The parser takes content, as much as there is. -/
def isBulk (p : Parser) : Bool :=
  p.state = .content || p.state = .contentEndless ||
    (p.state = .contentChunkBody && p.contentLength ≠ 0)

def bulkSize (p : Parser) (rest : ℕ) : ℕ :=
  if p.state = .contentEndless then rest else min p.contentLength.toNat rest

def bulk (p : Parser) (n : ℕ) : Parser × List Event :=
  if p.state = .contentEndless then (p, [])
  else
    let p' := { p with contentLength := p.contentLength - BitVec.ofNat 64 n }
    if p.state = .content ∧ p'.contentLength = 0 then
      ({ p' with state := .messageBegin }, [.messageEnd])
    else (p', [])

section

variable {p p' : Parser} {data t : Bytes} {pos n rest : ℕ} {c : UInt8} {es : List Event}
  {s s' : Parser × ℕ}

/-- **An iteration does not look ahead**, unless it takes content. -/
theorem iterate_append (hv : p.Valid pos) (hpos : pos ≤ data.length) (hbulk : p.isBulk = false) :
    p.iterate (data ++ t) pos c = p.iterate data pos c := by
  obtain ⟨hmethod, hentity, hmessage, hname, hvalue, -⟩ := hv
  have h₁ := Ref.bytes_append (hmethod.trans hpos) t
  have h₂ := Ref.bytes_append (hentity.trans hpos) t
  have h₃ := Ref.bytes_append (hmessage.trans hpos) t
  have h₄ := Ref.bytes_append (hname.trans hpos) t
  have h₅ := Ref.bytes_append ((Nat.le_add_right _ _).trans (hvalue.trans hpos)) t
  rcases hs : p.state
  case content | contentEndless => simp [isBulk, hs] at hbulk
  case contentChunkBody =>
    have hzero : p.contentLength = 0 := by simpa [isBulk, hs] using hbulk
    simp only [iterate, hs, hzero, ne_eq, not_true_eq_false, if_false]
  all_goals simp only [iterate, hs, h₁, h₂, h₃, h₄, h₅]

/-! ### Content in parts -/

theorem bulkSize_le : p.bulkSize rest ≤ rest := by
  rw [bulkSize]
  split
  · exact le_rfl
  · exact min_le_right _ _

theorem isBulk_iff : p.isBulk = true ↔ (p.state = .content ∨ p.state = .contentEndless) ∨
    p.state = .contentChunkBody ∧ p.contentLength ≠ 0 := by
  simp only [isBulk, or_eq_true, and_eq_true, decide_eq_true_eq]

theorem bulkSize_pos (hv : p.Valid pos) (hbulk : p.isBulk = true) (hrest : 0 < rest) :
    0 < p.bulkSize rest := by
  rw [bulkSize]
  split
  · exact hrest
  · next hs =>
    refine min_pos_of_ne_zero hrest ?_
    rcases isBulk_iff.1 hbulk with (hbulk | hbulk) | hbulk
    · exact hv.2.2.2.2.2.2 hbulk
    · exact absurd hbulk hs
    · exact hbulk.2

theorem bulk_of_not (hs : p.state ≠ .contentEndless)
    (h : ¬(p.state = .content ∧ p.contentLength - BitVec.ofNat 64 n = 0)) :
    p.bulk n = ({ p with contentLength := p.contentLength - BitVec.ofNat 64 n }, []) := by
  rw [bulk, if_neg hs]
  exact if_neg h

theorem iterate_bulk (hbulk : p.isBulk = true) (hn : p.bulkSize (data.length - pos) = n) :
    p.iterate data pos c =
      if (p.bulk n).1.state = .messageBegin then
        .done (p.bulk n).1 n (.content ((data.drop pos).take n) :: (p.bulk n).2)
      else .next (p.bulk n).1 n (.content ((data.drop pos).take n) :: (p.bulk n).2) := by
  rcases isBulk_iff.1 hbulk with (hs | hs) | ⟨hs, hne⟩
  · have hmin : min p.contentLength.toNat (data.length - pos) = n := by simpa [bulkSize, hs] using hn
    by_cases hzero : p.contentLength - BitVec.ofNat 64 n = 0
    · let p₁ := { p with contentLength := p.contentLength - BitVec.ofNat 64 n }
      have hp : p.bulk n = ({ p₁ with state := .messageBegin }, [.messageEnd]) := by
        rw [bulk, if_neg (by simp [hs])]
        exact if_pos ⟨hs, hzero⟩
      rw [hp, if_pos rfl]
      simp only [iterate, hs, hmin]
      exact if_pos hzero
    · rw [bulk_of_not (by simp [hs]) fun h ↦ hzero h.2, if_neg (by simp [hs])]
      simp only [iterate, hs, hmin]
      exact if_neg hzero
  · have hrest : data.length - pos = n := by simpa [bulkSize, hs] using hn
    have hp : p.bulk n = (p, []) := by rw [bulk, if_pos hs]
    rw [hp, if_neg (by simp [hs])]
    simp only [iterate, hs, hrest]
    rw [take_of_length_le]
    rw [length_drop, hrest]
  · have hmin : min p.contentLength.toNat (data.length - pos) = n := by simpa [bulkSize, hs] using hn
    rw [bulk_of_not (by simp [hs]) (by simp [hs]), if_neg (by simp [hs])]
    simp only [iterate, hs, hmin, if_pos hne]

theorem step_bulk (hv : p.Valid pos) (hbulk : p.isBulk = true) (hpos : pos < data.length)
    (hn : p.bulkSize (data.length - pos) = n) :
    (machine data).step (p, pos) =
      .ok (.content ((data.drop pos).take n) :: (p.bulk n).2, ((p.bulk n).1, pos + n)) := by
  have hpositive : 0 < n := hn ▸ bulkSize_pos hv hbulk (Nat.sub_pos_of_lt hpos)
  have hit : p.iterate data pos data[pos] = _ := iterate_bulk hbulk hn
  split at hit
  · exact step_of_done hpos hit hpositive
  · exact step_of_next hpos hit

theorem bulk_of_lt (hbulk : p.isBulk = true) {m : ℕ} (hm : 0 < m)
    (h : p.bulkSize (n + m) ≠ p.bulkSize n) :
    p.bulkSize n = n ∧ (p.bulk n).2 = [] ∧ (p.bulk n).1.isBulk = true ∧
      p.bulkSize (n + m) = n + (p.bulk n).1.bulkSize m ∧
      ∀ k, (p.bulk n).1.bulk k = p.bulk (n + k) := by
  by_cases hs : p.state = .contentEndless
  · simp [bulkSize, bulk, hs, hbulk]
  · have hlt : n < p.contentLength.toNat := by
      simp only [bulkSize, if_neg hs] at h
      omega
    have hsub : (p.contentLength - BitVec.ofNat 64 n).toNat = p.contentLength.toNat - n := by
      rw [BitVec.toNat_sub_of_le, BitVec.toNat_ofNat]
      · omega
      · rw [BitVec.le_def, BitVec.toNat_ofNat]
        omega
    have hne : p.contentLength - BitVec.ofNat 64 n ≠ 0 := by
      intro hzero
      rw [hzero] at hsub
      change 0 = _ at hsub
      omega
    have hsize (rest : ℕ) : p.bulkSize rest = min p.contentLength.toNat rest := by
      rw [bulkSize, if_neg hs]
    rw [bulk_of_not hs fun h ↦ hne h.2]
    refine ⟨by rw [hsize]; omega, rfl, ?_, ?_, fun k ↦ ?_⟩
    · exact isBulk_iff.2 ((isBulk_iff.1 hbulk).imp id fun h ↦ ⟨h.1, hne⟩)
    · rw [hsize, bulkSize, if_neg hs, hsub]
      omega
    · rw [bulk, bulk, if_neg hs, if_neg hs]
      have hlength : p.contentLength - BitVec.ofNat 64 n - BitVec.ofNat 64 k =
          p.contentLength - BitVec.ofNat 64 (n + k) := by
        rw [BitVec.ofNat_add, sub_sub]
      simp only [hlength]

theorem step_append (hv : p.Valid pos) (hpos : pos < data.length) (hbulk : p.isBulk = false)
    (t : Bytes) : (machine (data ++ t)).step (p, pos) = (machine data).step (p, pos) := by
  have hpos' : pos < (data ++ t).length := by
    rw [length_append]
    exact Nat.lt_add_right _ hpos
  simp only [machine, dif_pos hpos, dif_pos hpos', iterate_append hv hpos.le hbulk,
    getElem_append_left hpos]

/-- **A step on the first part of the data is a step on all of it, or the first part of one.** -/
theorem interrupts_machine (hv : s.1.Valid s.2) (data t : Bytes) :
    Trace.Interrupts upToContents (machine data) (machine (data ++ t)) s := by
  obtain ⟨p, pos⟩ := s
  intro es s₁ hstep
  obtain ⟨hpos, -⟩ := iterate_of_step hstep
  rcases hbulk : p.isBulk with - | -
  · exact Or.inl ((step_append hv hpos hbulk t).trans hstep)
  have hlength : (data ++ t).length = data.length + t.length := length_append
  have hpos' : pos < (data ++ t).length := by omega
  obtain ⟨n, hn⟩ : ∃ n, n = data.length - pos := ⟨_, rfl⟩
  have hrest : (data ++ t).length - pos = n + t.length := by omega
  have hstep₁ := step_bulk hv hbulk hpos rfl
  rw [← hn] at hstep₁
  rw [hstep₁] at hstep
  cases hstep
  have hle : p.bulkSize n ≤ (data.drop pos).length := by
    rw [length_drop, ← hn]
    exact bulkSize_le
  by_cases hsize : p.bulkSize (n + t.length) = p.bulkSize n
  · left
    rw [step_bulk hv hbulk hpos' (hrest ▸ hsize), drop_append_of_le_length hpos.le,
      take_append_of_le_length hle]
  · right
    have ht : 0 < t.length := Nat.pos_of_ne_zero fun hzero ↦ hsize (by rw [hzero, Nat.add_zero])
    obtain ⟨hfull, hnil, hbulk₁, hsize₁, hbulks⟩ := bulk_of_lt hbulk ht hsize
    obtain ⟨-, -, hvalid₁, -, -⟩ := step_sound hstep₁
    rw [hfull] at hstep₁ hvalid₁ ⊢
    rw [hnil]
    have hend : pos + n = data.length := by omega
    have hpos₁ : pos + n < (data ++ t).length := by omega
    have hrest₁ : (data ++ t).length - (pos + n) = t.length := by omega
    refine ⟨_, .content (t.take ((p.bulk n).1.bulkSize t.length)) ::
      ((p.bulk n).1.bulk ((p.bulk n).1.bulkSize t.length)).2, _, step_bulk hv hbulk hpos' rfl, ?_, ?_⟩
    · rw [step_bulk (hvalid₁ hv) hbulk₁ hpos₁ rfl, hrest₁, hrest, hsize₁, hbulks, hend,
        drop_left, ← add_assoc, hend]
    · have hdrop : (data.drop pos).length = n := by rw [length_drop, hn]
      have htake (k : ℕ) : ((data ++ t).drop pos).take (n + k) = (data.drop pos).take n ++ t.take k := by
        rw [drop_append_of_le_length hpos.le, ← hdrop, take_length_add_append, take_length]
      rw [hrest, hsize₁, hbulks, htake]
      exact upToContents_content _ _ _

/-! ### Streams of requests -/

theorem not_lf_of_step (h : (machine data).step s = .ok (es, s')) :
    ¬(s.1.state = .request09Lf ∧ data[s.2]? = some LF) := by
  rintro ⟨hs, hlf⟩
  obtain ⟨hpos, p', n, -, hit⟩ := iterate_of_step h
  rw [getElem?_eq_getElem hpos, Option.some_inj] at hlf
  simp only [iterate, hs, hlf, if_true] at hit
  rcases hit with hit | ⟨hit, hn⟩
  · cases hit
  · cases hit
    exact lt_irrefl 0 hn

theorem carriesVersions_of_ok (h : (machine data).step s = .ok (es, s'))
    (h' : CarriesVersions data s') : CarriesVersions data s := by
  intro es₁ s₁ hsteps
  cases hsteps with
  | refl => exact not_lf_of_step h
  | head hstep hrest =>
    cases h.symm.trans hstep
    exact h' _ _ hrest

/-- The request lines to come are the same after a step on the first part of the data. -/
theorem CarriesVersions.step (hver : CarriesVersions (data ++ t) s) (hv : s.1.Valid s.2)
    (h : (machine data).step s = .ok (es, s')) : CarriesVersions (data ++ t) s' := by
  rcases interrupts_machine hv data t h with hstep | ⟨es₁, es₂, s₂, hstep, hstep', -⟩
  · exact hver.steps (.single hstep)
  · exact carriesVersions_of_ok hstep' (hver.steps (.single hstep))

/-- A parser of requests, on its way through the stream. -/
structure OnStream (stream : Bytes) (s : Parser × ℕ) : Prop where
  /-- The references are to bytes that were taken. -/
  valid : s.1.Valid s.2
  mode_eq : s.1.mode = .request
  /-- The request lines to come have a version. -/
  carriesVersions : CarriesVersions stream s

theorem OnStream.step (h : OnStream (data ++ t) s) (hstep : (machine data).step s = .ok (es, s')) :
    OnStream (data ++ t) s' := by
  obtain ⟨hmode, -, hvalid, -, -⟩ := step_sound hstep
  exact ⟨hvalid h.valid, hmode.trans h.mode_eq, h.carriesVersions.step h.valid hstep⟩

theorem OnStream.carriesVersions_left (h : OnStream (data ++ t) s) : CarriesVersions data s := by
  intro es s' hsteps ⟨hs, hlf⟩
  have h' : OnStream (data ++ t) s' :=
    hsteps.invariant (fun h hstep ↦ h.step hstep) h
  refine h'.carriesVersions _ _ (.refl s') ⟨hs, ?_⟩
  have hpos : s'.2 < data.length := by
    by_contra hpos
    rw [getElem?_eq_none (not_lt.1 hpos)] at hlf
    cases hlf
  rw [getElem?_append_left hpos, hlf]

theorem OnStream.feed_ends (h : OnStream (data ++ t) s) :
    (machine data).Ends s (feed data s).1 (feed data s).2 :=
  Parser.feed_ends h.valid h.mode_eq h.carriesVersions_left

theorem OnStream.of_feed {stream d : Bytes} (hd : d <+: stream) (h : OnStream stream s)
    (hfeed : feed d s = (es, some s')) : OnStream stream s' := by
  obtain ⟨t, rfl⟩ := hd
  obtain ⟨s₁, hsteps, hend⟩ := h.feed_ends
  rw [hfeed] at hend
  have h' : OnStream (d ++ t) s₁ :=
    hsteps.invariant (fun h hstep ↦ h.step hstep) h
  rcases step_error hend with heq | ⟨hnone, -⟩
  · cases heq
    exact h'
  · cases hnone

theorem step_none_append (hv : s.1.Valid s.2) (h : (machine data).step s = .error none) (t : Bytes) :
    (machine (data ++ t)).step s = .error none := by
  rcases step_error h with heq | ⟨-, hpos, p', hit⟩
  · cases heq
  · refine (step_append hv hpos ?_ t).trans h
    -- Where the parser takes content there are no versions.
    by_contra hbulk
    have hstep := step_bulk hv (not_eq_false _ ▸ hbulk) hpos rfl
    cases hstep.symm.trans h

theorem OnStream.resume {stream d : Bytes} (hd : d <+: stream) (h : OnStream stream s) :
    Trace.Equiv upToContents (feed stream s) ((feed d s).bind (feed stream)) := by
  obtain ⟨t, rfl⟩ := hd
  have hwhole : (machine (d ++ t)).Ends s (feed (d ++ t) s).1 (feed (d ++ t) s).2 :=
    Parser.feed_ends h.valid h.mode_eq h.carriesVersions
  obtain ⟨s₁, hsteps, hend⟩ := h.feed_ends
  have h₁ : OnStream (d ++ t) s₁ :=
    hsteps.invariant (fun h hstep ↦ h.step hstep) h
  have hjoin {es' : List Event} {r : Option (Parser × ℕ)}
      (hends : (machine (d ++ t)).Ends s₁ es' r) :=
    ends_of_interrupts
      (fun h hstep ↦ h.step hstep) (fun s h ↦ interrupts_machine h.valid d t) h hsteps hends
  rcases hfeed : feed d s with ⟨es, - | s'⟩
  · rw [hfeed] at hend hjoin
    obtain ⟨es₁, hends, hr⟩ := hjoin ⟨s₁, .refl s₁, step_none_append h₁.valid hend t⟩
    obtain ⟨hes, hres⟩ := hwhole.unique hends
    rw [append_nil] at hr
    exact ⟨hes ▸ hr, hres⟩
  · rw [hfeed] at hend hjoin
    obtain rfl : s' = s₁ := by
      rcases step_error hend with heq | ⟨hnone, -⟩
      · exact Option.some.inj heq
      · cases hnone
    obtain ⟨es₁, hends, hr⟩ :=
      hjoin (Parser.feed_ends h₁.valid h₁.mode_eq h₁.carriesVersions)
    obtain ⟨hes, hres⟩ := hwhole.unique hends
    exact ⟨hes ▸ hr, hres⟩

theorem valid_init (mode : ParseMode) : (init mode).Valid 0 :=
  ⟨le_rfl, le_rfl, le_rfl, le_rfl, le_rfl, nofun, nofun⟩

theorem feed_nil : feed [] (init .request, 0) = ([], some (init .request, 0)) := by
  have hver : CarriesVersions [] (init .request, 0) := fun _ _ _ ⟨_, hlf⟩ ↦ nomatch hlf
  have hends := feed_ends (valid_init .request) rfl hver
  obtain ⟨hes, hr⟩ := (Machine.ends_iff_of_error (step_of_le (Nat.zero_le 0))).1 hends
  exact Prod.ext hes hr

/-- **It does not matter how a stream of requests is cut into fragments**, if its request lines have
a version: the events are the same, up to the parts in which content comes, and so is the parser
then, or there is an exception in either case. -/
theorem parse_fragments (stream : Bytes) (hver : CarriesVersions stream (init .request, 0))
    (fragments : List Bytes) (h : fragments.flatten = stream) :
    concatContents (parse .request fragments).1 = concatContents (parse .request [stream]).1 ∧
      (parse .request fragments).2 = (parse .request [stream]).2 := by
  have hone : parse .request [stream] = feed stream (init .request, 0) := by
    show bind (feed stream _) pure = _
    rw [bind_pure]
  rw [hone]
  rcases fragments with - | ⟨fragment, fragments⟩
  · obtain rfl : [] = stream := h
    rw [feed_nil]
    exact ⟨rfl, rfl⟩
  · exact feed_equiv (C := upToContents) (P := OnStream stream)
      (fun hd h hfeed ↦ h.of_feed hd hfeed) (fun hd h ↦ h.resume hd) (cons_ne_nil _ _)
      ⟨valid_init _, rfl, hver⟩ h

theorem carriesVersions_of_error {r : Option (Parser × ℕ)} (h : (machine data).step s = .error r)
    (hs : s.1.state ≠ .request09Lf) : CarriesVersions data s := by
  intro es₁ s₁ hsteps
  cases hsteps with
  | refl => exact fun hlf ↦ hs hlf.1
  | head hstep _ => cases h.symm.trans hstep

def getRequest : Bytes :=
  ascii ['G', 'E', 'T', ' ', '/', ' ', 'H', 'T', 'T', 'P', '/', '1', '.', '1', '\r', '\n', '\r', '\n']

/-- A request is the same in two fragments. -/
theorem parse_fragments_get :
    concatContents (parse .request [getRequest.take 5, getRequest.drop 5]).1 =
        concatContents (parse .request [getRequest]).1 ∧
      (parse .request [getRequest.take 5, getRequest.drop 5]).2 = (parse .request [getRequest]).2 := by
  refine parse_fragments getRequest ?_ [getRequest.take 5, getRequest.drop 5] (by decide)
  repeat refine carriesVersions_of_ok rfl ?_
  exact carriesVersions_of_error rfl nofun

end

end Parser

end Xzero.Http.Http1
