import Xzero.Http.Http1.Pipelining

/-!
# A request at the beginning of a stream

A request that the parser takes on its own (`Parser.Complete`) may be followed by anything: by
further requests, by request lines without a version, by bytes that are no request at all. **It is
delivered whatever follows, and however the stream is cut** (`Parser.Complete.parse_eq_append`), and
the parser goes on right behind it.
-/

namespace Xzero.Http.Http1

open List Util Event

namespace Parser

section

variable {p p₁ : Parser} {data d t : Bytes} {pos k n : ℕ} {c : UInt8} {es : List Event}

/-! ### More data -/

theorem iterate_append_of_inside (hv : p.Valid pos) (hpos : pos < data.length)
    (h : p.isBulk = true → p.state ≠ .contentEndless ∧ p.contentLength.toNat ≤ data.length - pos) :
    p.iterate (data ++ t) pos c = p.iterate data pos c := by
  rcases hbulk : p.isBulk with - | -
  · exact iterate_append hv hpos.le hbulk
  obtain ⟨hendless, hle⟩ := h hbulk
  have hmin (m : ℕ) (hm : data.length - pos ≤ m) : min p.contentLength.toNat m =
      p.contentLength.toNat := min_eq_left (hle.trans hm)
  have hrest : data.length - pos ≤ (data ++ t).length - pos := by
    rw [length_append]
    omega
  have htake : ((data ++ t).drop pos).take p.contentLength.toNat =
      (data.drop pos).take p.contentLength.toNat := by
    rw [drop_append_of_le_length hpos.le, take_append_of_le_length]
    rwa [length_drop]
  rcases isBulk_iff.1 hbulk with (hs | hs) | ⟨hs, -⟩
  · simp only [iterate, hs, hmin _ hrest, hmin _ le_rfl, htake]
  · exact absurd hs hendless
  · simp only [iterate, hs, hmin _ hrest, hmin _ le_rfl, htake]

theorem lt_append (t : Bytes) (hpos : pos < data.length) : pos < (data ++ t).length := by
  rw [length_append]
  exact Nat.lt_add_right _ hpos

theorem loop_append_of_done (hv : p.Valid pos) (h : p.loop data pos = (es, .done p₁ k)) :
    p.loop (data ++ t) pos = (es, .done p₁ k) := by
  revert hv
  refine loop_done_induction h ?_ ?_
  · intro p pos q n es es' hpos hit hlt _ _ ih hv
    have hpos' := lt_append t hpos
    have hit' : p.iterate (data ++ t) pos (data ++ t)[pos] = .next q n es := by
      rw [getElem_append_left hpos, iterate_append_of_inside hv hpos fun hbulk ↦
        bulk_inside hv hpos hbulk (step_of_next hpos hit) (.inl hlt), hit]
    obtain ⟨-, -, hvalid⟩ := iterate_next hit
    rw [loop_of_next hpos' hit', ih (hvalid hv)]
  · rintro p pos n es hpos hit rfl - hv
    refine loop_of_done (lt_append t hpos) ?_
    rw [getElem_append_left hpos, iterate_append_of_inside hv hpos fun hbulk ↦
      bulk_inside_of_done hv hpos hbulk hit, hit]

/-! ### Less data -/

/-- What the loop does after it has taken content. -/
def afterBulk (p : Parser) (data : Bytes) (pos n : ℕ) : List Event × Exit :=
  if (p.bulk n).1.state = .messageBegin then ((p.bulk n).2, .done (p.bulk n).1 (pos + n))
  else ((p.bulk n).2 ++ ((p.bulk n).1.loop data (pos + n)).1, ((p.bulk n).1.loop data (pos + n)).2)

theorem loop_bulk (hbulk : p.isBulk = true) (hpos : pos < data.length)
    (hn : p.bulkSize (data.length - pos) = n) : p.loop data pos =
      (.content ((data.drop pos).take n) :: (p.afterBulk data pos n).1, (p.afterBulk data pos n).2) := by
  have hit : p.iterate data pos data[pos] = _ := iterate_bulk hbulk hn
  rw [afterBulk]
  split
  · next hs =>
    rw [if_pos hs] at hit
    rw [loop_of_done hpos hit]
  · next hs =>
    rw [if_neg hs] at hit
    rw [loop_of_next hpos hit]
    rfl

theorem loop_cut_of_bulk (hv : p.Valid pos) (hlt : pos < d.length) (ht : t ≠ [])
    (hbulk : p.isBulk = true)
    (hnot : ¬(p.state ≠ .contentEndless ∧ p.contentLength.toNat ≤ d.length - pos))
    {x : Exit} (h : p.loop (d ++ t) pos = (es, x)) :
    ∃ (es₁ es₂ : List Event) (q : Parser), p.loop d pos = (es₁, .reached q d.length) ∧
      q.loop (d ++ t) d.length = (es₂, x) ∧ q.Valid d.length ∧ q.mode = p.mode ∧
      upToContents.r es (es₁ ++ es₂) := by
  obtain ⟨n, hn⟩ : ∃ n, n = d.length - pos := ⟨_, rfl⟩
  have hlength : (d ++ t).length = d.length + t.length := length_append
  have htpos := List.length_pos_iff.2 ht
  have hsize : p.bulkSize (n + t.length) ≠ p.bulkSize n := by
    rw [bulkSize, bulkSize]
    split
    · omega
    · next hs =>
      have := not_le.1 fun hle ↦ hnot ⟨hs, hle⟩
      omega
  obtain ⟨hfull, hnil, hbulk₁, hsize₁, hbulks⟩ := bulk_of_lt hbulk htpos hsize
  have hend : pos + n = d.length := by omega
  have hstate : (p.bulk n).1.state ≠ .messageBegin := by
    intro hs
    rw [isBulk, hs] at hbulk₁
    cases hbulk₁
  have hfull' : p.bulkSize (d.length - pos) = n := by rw [← hn, hfull]
  have hit : p.iterate d pos d[pos] = _ := iterate_bulk hbulk hfull'
  rw [if_neg hstate, hnil] at hit
  obtain ⟨hmode, -, hvalid⟩ := iterate_next hit
  have hrest : (d ++ t).length - pos = n + t.length := by omega
  have hrest₁ : (d ++ t).length - d.length = t.length := by omega
  have hdrop : (d.drop pos).length = n := by rw [length_drop, hn]
  have htake (k : ℕ) : ((d ++ t).drop pos).take (n + k) = (d.drop pos).take n ++ t.take k := by
    rw [drop_append_of_le_length hlt.le, ← hdrop, take_length_add_append, take_length]
  -- Both loops take the rest of the content, and are in the same state then.
  have hafter (k : ℕ) : (p.bulk n).1.afterBulk (d ++ t) d.length k =
      p.afterBulk (d ++ t) pos (n + k) := by
    rw [afterBulk, afterBulk, hbulks, ← add_assoc, hend]
  have hwhole := (loop_bulk hbulk (lt_append t hlt) (hrest ▸ hsize₁)).symm.trans h
  rw [htake] at hwhole
  obtain ⟨rfl, hx⟩ := Prod.mk.inj hwhole
  have hpos₁ : d.length < (d ++ t).length := by omega
  have hloop := loop_bulk hbulk₁ hpos₁ (congrArg (p.bulk n).1.bulkSize hrest₁)
  rw [hafter, drop_left, hx] at hloop
  refine ⟨[.content ((d.drop pos).take n)], _, (p.bulk n).1, ?_, hloop, hend ▸ hvalid hv, hmode, ?_⟩
  · rw [loop_of_next hlt hit, hend, loop_of_le le_rfl, append_nil]
  · exact upToContents_content _ _ _

/-- **A message may be cut**: the parser comes to the cut, and what is left of the message is there.
-/
theorem loop_cut_of_done (hv : p.Valid pos) (hpos : pos ≤ d.length) (ht : t ≠ []) (hk : d.length < k)
    (h : p.loop (d ++ t) pos = (es, .done p₁ k)) :
    ∃ (es₁ es₂ : List Event) (q : Parser), p.loop d pos = (es₁, .reached q d.length) ∧
      q.loop (d ++ t) d.length = (es₂, .done p₁ k) ∧ q.Valid d.length ∧ q.mode = p.mode ∧
      upToContents.r es (es₁ ++ es₂) := by
  revert hv hpos
  refine loop_done_induction h ?_ ?_
  · intro p pos q n es es' _ hit _ _ hloop ih hv hpos
    rcases hpos.lt_or_eq with hlt | rfl
    · by_cases hinside : p.isBulk = true →
          p.state ≠ .contentEndless ∧ p.contentLength.toNat ≤ d.length - pos
      · -- The iteration is the same on what comes before the cut.
        have hit' : p.iterate d pos d[pos] = .next q n es := by
          rw [← iterate_append_of_inside hv hlt hinside, ← hit, getElem_append_left hlt]
        obtain ⟨hmode, -, hvalid⟩ := iterate_next hit'
        obtain ⟨es₁, es₂, q', hloop₁, hloop₂, hv', hmode', hr⟩ :=
          ih (hvalid hv) (add_le_of_next hlt hit')
        refine ⟨es ++ es₁, es₂, q', ?_, hloop₂, hv', hmode'.trans hmode, ?_⟩
        · rw [loop_of_next hlt hit', hloop₁]
        · rw [append_assoc]
          exact upToContents.append (upToContents.equivalence.refl _) hr
      · obtain ⟨hbulk, hnot⟩ := Classical.not_imp.1 hinside
        exact loop_cut_of_bulk hv hlt ht hbulk hnot hloop
    · exact ⟨[], _, p, loop_of_le le_rfl, hloop, hv, rfl, upToContents.equivalence.refl _⟩
  · intro p pos n es _ hit hend hloop hv hpos
    rcases hpos.lt_or_eq with hlt | rfl
    · by_cases hinside : p.isBulk = true →
          p.state ≠ .contentEndless ∧ p.contentLength.toNat ≤ d.length - pos
      · have hit' : p.iterate d pos d[pos] = .done p₁ n es := by
          rw [← iterate_append_of_inside hv hlt hinside, ← hit, getElem_append_left hlt]
        have hle := add_le_of_done hlt hit'
        omega
      · obtain ⟨hbulk, hnot⟩ := Classical.not_imp.1 hinside
        exact loop_cut_of_bulk hv hlt ht hbulk hnot hloop
    · exact ⟨[], es, p, loop_of_le le_rfl, hloop, hv, rfl, upToContents.equivalence.refl _⟩

/-! ### Fragments -/

/-- The parser goes on from a state when there is more data. -/
def continued (data : Bytes) (s : Parser × ℕ) (fragments : List Bytes) : Trace Event (Parser × ℕ) :=
  (if s.2 < data.length then feed data s else .pure s).bind fun s' ↦
    .feed feed data s' fragments

/-- What is reported after a state, however the rest of the stream is cut. -/
def GoesOn (stream : Bytes) (s : Parser × ℕ) (rest : Trace Event (Parser × ℕ)) : Prop :=
  ∃ (data : Bytes) (fragments : List Bytes), data ++ fragments.flatten = stream ∧
    s.2 ≤ data.length ∧ rest = continued data s fragments

theorem feed_fragments_of_done {u : Bytes} {fragments : List Bytes}
    (hv : p.Valid d.length) (hmode : p.mode = .request) (hd : d.length < u.length) (hu : d <+: u)
    (hflat : d ++ fragments.flatten = u ++ t) (h : p.loop u d.length = (es, .done p₁ u.length)) :
    ∃ (es₁ : List Event) (rest : Trace Event (Parser × ℕ)),
      upToContents.r es₁ es ∧ GoesOn (u ++ t) (p₁, u.length) rest ∧
      Trace.feed feed d (p, d.length) fragments = (es₁ ++ rest.1, rest.2) := by
  induction fragments generalizing d p es with
  | nil =>
    rw [flatten_nil, append_nil] at hflat
    rw [hflat, length_append] at hd
    omega
  | cons f fragments ih =>
    rw [flatten_cons, ← append_assoc] at hflat
    rw [Trace.feed]
    rcases lt_or_ge (d ++ f).length u.length with hlt | hge
    · -- The message goes on behind the fragment.
      obtain ⟨t', rfl⟩ : d ++ f <+: u :=
        prefix_of_prefix_length_le ⟨fragments.flatten, hflat⟩ ⟨t, rfl⟩ hlt.le
      have ht' : t' ≠ [] := by
        rintro rfl
        rw [append_nil] at hlt
        exact lt_irrefl _ hlt
      have hle : d.length ≤ (d ++ f).length := by
        rw [length_append]
        exact Nat.le_add_right _ _
      obtain ⟨es₁, es₂, q, hloop₁, hloop₂, hvq, hmodeq, hr⟩ := loop_cut_of_done hv hle ht' hlt h
      have hend : ¬q.endsWithFragment := not_endOfFragment hvq (hmodeq.trans hmode)
      obtain ⟨es₃, rest, hr₃, hgoes, hfeed⟩ :=
        ih hvq (hmodeq.trans hmode) hlt ⟨t', rfl⟩ hflat hloop₂
      refine ⟨es₁ ++ es₃, rest, ?_, hgoes, ?_⟩
      · refine upToContents.equivalence.trans ?_ (upToContents.equivalence.symm hr)
        exact upToContents.append (upToContents.equivalence.refl _) hr₃
      · rw [feed_of_not_end hloop₁ hle hend, Trace.bind_some, hfeed, append_assoc]
    · -- The message ends in the fragment.
      obtain ⟨t', ht'⟩ : u <+: d ++ f := by
        refine prefix_of_prefix_length_le ⟨t, rfl⟩ ⟨fragments.flatten, hflat⟩ hge
      have hloop := loop_append_of_done (t := t') hv h
      rw [ht'] at hloop
      refine ⟨es, continued (d ++ f) (p₁, u.length) fragments, upToContents.equivalence.refl _,
        ⟨d ++ f, fragments, hflat, hge, rfl⟩, ?_⟩
      rw [feed_of_done hloop hd, continued]
      split
      · rw [Trace.bind_append]
      · rfl

/-- **A request at the beginning of a stream is delivered**, whatever follows and however the stream
is cut, and the parser goes on behind it. -/
theorem Complete.parse_eq_append {u : Bytes} (h : Complete u es p) {fragments : List Bytes}
    (hflat : fragments.flatten = u ++ t) :
    ∃ (es₁ : List Event) (rest : Trace Event (Parser × ℕ)),
      upToContents.r es₁ es ∧ GoesOn (u ++ t) (p, u.length) rest ∧
      parse .request fragments = (es₁ ++ rest.1, rest.2) :=
  feed_fragments_of_done (valid_init .request) rfl h.length_pos nil_prefix hflat h.loop_eq

end

end Parser

end Xzero.Http.Http1
