import Xzero.Http.Client.Whereabouts

/-!
# The tokens of the requests of a cluster

A request is to hold one token of its bucket while a member processes it. It gets the token
before it is handed over, in `schedule` or, from the queue, in `dequeueTo`, and gives it back
when the response ends or the member fails. The two callers of `reschedule` break the rule: a
request that a member failed has given its token back and may be handed over without one, and
one that was dequeued forgets its token when its member does not take it. In every run in which
neither happens the counts of the shaper are the numbers of requests that members process
(**`Cluster.tokensMatch_of_reach`**); otherwise tokens are lost
(**`Cluster.not_tokensMatch`**).
-/

namespace Xzero.Http.Client

open TokenShaper List Option

/-- The request that a closure has a token for. -/
def Task.holder : Task → Option ℕ
  | .dequeued r _ => some r
  | .timedOut _ => none

namespace Cluster

variable {c : Settings} {s s' : Cluster} {r m : ℕ} {clock : Clock} {p : Address}
  {hand extra : List ℕ}

def bucketOf (s : Cluster) (r : ℕ) : Address := ((s.requests[r]?).map Request.bucket).getD []

/-- The requests that a token is taken for. -/
def inFlight (s : Cluster) : List ℕ :=
  s.processing.map Prod.fst ++ s.posted.filterMap Task.holder

/-- The buckets that tokens are taken from, for the requests in flight and some others. -/
def held (extra : List ℕ) (s : Cluster) : Multiset Address :=
  ((s.inFlight ++ extra).map s.bucketOf : List Address)

def HasToken (s : Cluster) (r : ℕ) : Prop := ∃ x, s.requests[r]? = some x ∧ x.tokens = 1

/-- The counts of the shaper are those of the requests in flight and of some others, and the
requests that members process have their tokens. -/
structure Accounted (extra : List ℕ) (s : Cluster) : Prop where
  ledger : (⟨s.shaper, s.held extra⟩ : TokenShaper.Ledger ℕ).Inv
  tokens : ∀ q ∈ s.processing, s.HasToken q.1

theorem bucketOf_eq {x : Request} (hx : s.requests[r]? = some x) : s.bucketOf r = x.bucket := by
  rw [bucketOf, hx]
  rfl

theorem bucketOf_setRequest {f : Request → Request} (hf : ∀ x, (f x).bucket = x.bucket) :
    (s.setRequest r f).bucketOf = s.bucketOf := by
  funext q
  rw [bucketOf, getElem?_setRequest, bucketOf]
  split
  · rw [Option.map_map]
    congr 2
    exact funext hf
  · rfl

theorem held_append (extra extra' : List ℕ) :
    s.held (extra ++ extra') = s.held extra + (extra'.map s.bucketOf : List Address) := by
  rw [held, held, ← append_assoc, map_append, Multiset.coe_add]

theorem held_eq {extra' : List ℕ} (hbucket : s'.bucketOf = s.bucketOf)
    (hperm : (s'.inFlight ++ extra').Perm (s.inFlight ++ extra)) : s'.held extra' = s.held extra := by
  rw [held, held, hbucket, Multiset.coe_eq_coe]
  exact hperm.map _

theorem card_held (extra : List ℕ) : (s.held extra).card = s.inFlight.length + extra.length := by
  simp [held]

/-! ### Moves -/

namespace Accounted

section

variable (h : Accounted extra s)
include h

theorem congr {extra' : List ℕ} (hshaper : s'.shaper.map TokenShaper.Node.actualRate =
      s.shaper.map TokenShaper.Node.actualRate)
    (hheld : s'.held extra' = s.held extra) (htokens : ∀ q ∈ s'.processing, s'.HasToken q.1) :
    Accounted extra' s' := by
  refine ⟨?_, htokens⟩
  rw [hheld]
  exact h.ledger.congr hshaper

theorem setShaper {t : TokenShaper.Tree ℕ}
    (ht : t.map TokenShaper.Node.actualRate = s.shaper.map TokenShaper.Node.actualRate) :
    Accounted extra { s with shaper := t } := h.congr ht rfl h.tokens

theorem setBackend (b : Option ℕ) : Accounted extra (s.setBackend r b) := by
  refine h.congr rfl ?_ fun q hq ↦ ?_
  · exact held_eq (bucketOf_setRequest fun _ ↦ rfl) (List.Perm.refl _)
  · obtain ⟨x, hx, htokens⟩ := h.tokens q hq
    rw [HasToken, Cluster.setBackend, getElem?_setRequest, hx]
    split
    · exact ⟨_, rfl, htokens⟩
    · exact ⟨x, rfl, htokens⟩

theorem setTokens (hr : ∀ q ∈ s.processing, q.1 ≠ r) (n : ℕ) :
    Accounted extra (s.setTokens r n) := by
  refine h.congr rfl ?_ fun q hq ↦ ?_
  · exact held_eq (bucketOf_setRequest fun _ ↦ rfl) (List.Perm.refl _)
  · obtain ⟨x, hx, htokens⟩ := h.tokens q hq
    refine ⟨x, ?_, htokens⟩
    rw [Cluster.setTokens, getElem?_setRequest, if_neg (Ne.symm (hr q hq)), hx]

end

theorem handOver (h : Accounted [r] s) (hr : s.HasToken r) (x : Member) :
    Accounted [] (s.handOver x r) := by
  have h₁ := h.setBackend (r := r) (some x.id)
  have hr₁ : (s.setBackend r (some x.id)).HasToken r := by
    obtain ⟨y, hy, htokens⟩ := hr
    exact ⟨_, getElem?_setRequest_self hy _, htokens⟩
  refine h₁.congr rfl ?_ fun q hq ↦ ?_
  · refine held_eq rfl ?_
    simp only [inFlight, Cluster.handOver, observe, Cluster.setBackend, setRequest, setMember,
      map_append, append_assoc, append_nil]
    exact perm_append_comm.append_left _
  · rcases mem_append.mp hq with hq | hq
    · exact h₁.tokens q hq
    · rw [mem_singleton.mp hq]
      exact hr₁

theorem get (h : Accounted [] s) (hcard : s.inFlight.length + 1 < 2 ^ 64)
    (hr : s.bucketOf r = p) (hn : (get p 1 s.shaper).1 ≠ 0) :
    Accounted [r] { s with shaper := (get p 1 s.shaper).2 } := by
  refine ⟨?_, h.tokens⟩
  have hget := h.ledger.get (n := 1) (p := p) (by rw [card_held]; exact hcard)
  obtain ⟨-, -, hone⟩ | hzero := get_cases h.ledger.counts p 1
  · have hheld : ({ s with shaper := (TokenShaper.get p 1 s.shaper).2 } : Cluster).held [r] =
        s.held [] + Multiset.replicate 1 p := by
      rw [← hr]
      exact held_append [] [r]
    rw [hheld]
    rwa [hone] at hget ⊢
  · exact absurd (congrArg Prod.fst hzero) hn

theorem put (h : Accounted [r] s) (hr : s.bucketOf r = p) {t : TokenShaper.Tree ℕ}
    (ht : put p 1 s.shaper = some t) : Accounted [] { s with shaper := t } := by
  refine ⟨?_, h.tokens⟩
  have hheld : s.held [r] = s.held [] + Multiset.replicate 1 p := by
    rw [← hr]
    exact held_append [] [r]
  have hput := h.ledger.put (by simp [hheld]) ht
  rw [hheld, Multiset.add_sub_cancel_right] at hput
  exact hput

theorem assign (h : Accounted (extra ++ [r]) s) :
    Accounted extra { s with posted := s.posted ++ [.dequeued r m] } := by
  refine h.congr rfl (held_eq rfl ?_) h.tokens
  simp only [inFlight, filterMap_append, append_assoc]
  exact (perm_append_comm.append_left _).append_left _

section

variable (h : Accounted extra s)
include h

theorem dequeueTo (hplaced : Placed hand s)
    (hcard : s.inFlight.length + extra.length + 1 < 2 ^ 64) (hs : s.dequeueTo m = some s') :
    Accounted extra s' := by
  obtain ⟨found, t, hdequeue, hout, -⟩ :=
    dequeueWithin_spec (Rose.at?_nil s.shaper) le_rfl hplaced.turn
  have hledger := h.ledger.dequeue (by rw [card_held]; exact hcard) hout
  rw [Cluster.dequeueTo, dequeue, hdequeue] at hs
  cases hout with
  | nothing =>
    cases hs
    simp only [elim_none, Multiset.add_zero] at hledger
    exact ⟨hledger, h.tokens⟩
  | @item u q x item rest _ hx hqueue =>
    cases hs
    obtain ⟨y, hy, hbucket, -⟩ := hplaced.queued q _
      (by rw [queueAt, hx, map_some, hqueue]) item.token (by simp)
    have hq : s.bucketOf item.token = q := (bucketOf_eq hy).trans hbucket
    have hheld : s.held extra + {q} = s.held (extra ++ [item.token]) := by
      rw [held_append, map_singleton, hq]
      rfl
    rw [elim_some, hheld] at hledger
    exact (⟨hledger, h.tokens⟩ : Accounted (extra ++ [item.token]) { s with shaper := _ }).assign

theorem post {tasks : List Task} (htasks : ∀ task ∈ tasks, task.holder = none) :
    Accounted extra { s with posted := s.posted ++ tasks } := by
  refine h.congr rfl (held_eq rfl ?_) h.tokens
  have hnone : tasks.filterMap Task.holder = [] := filterMap_eq_nil_iff.mpr htasks
  rw [inFlight, inFlight, filterMap_append, hnone, append_nil]

theorem resized (hs : Resized s s') : Accounted extra s' := by
  obtain ⟨ht⟩ := hs
  exact h.setShaper (ht _ fun _ _ _ ↦ rfl)

theorem setMember (f : Member → Member) :
    Accounted extra (s.setMember m f) := h.congr rfl rfl h.tokens

theorem setNext (n : ℕ) : Accounted extra { s with next := n } :=
  h.congr rfl rfl h.tokens

theorem observe (e : Event) : Accounted extra (s.observe e) :=
  h.congr rfl rfl h.tokens

end

end Accounted

theorem Placed.ne_of_processing (h : Placed [r] s) : ∀ q ∈ s.processing, q.1 ≠ r := by
  rintro q hq rfl
  have hpos := count_pos_iff.mpr (mem_map_of_mem (f := Prod.fst) hq)
  have hone := h.le_one q.1
  rw [places, processingCount, count_singleton_self] at hone
  omega

theorem inFlight_resized (hs : Resized s s') : s'.inFlight = s.inFlight := by
  cases hs
  rfl

/-! ### Callbacks -/

namespace Accounted

theorem healthChanged (h : Accounted extra s) (hplaced : Placed hand s)
    (hcard : s.inFlight.length + extra.length + 1 < 2 ^ 64) (hs : HealthChanged m s s') :
    Accounted extra s' := by
  cases hs with
  | resized _ hresized => exact (h.setMember _).resized hresized
  | disabled _ _ hresized => exact ((h.setMember _).resized hresized).setMember _
  | dequeued _ hresized hdequeue =>
    refine ((h.setMember _).resized hresized).dequeueTo ((hplaced.setMember _).resized hresized)
      ?_ hdequeue
    rw [inFlight_resized hresized]
    exact hcard

theorem refile (h : Accounted extra s) (f : TokenShaper.Node ℕ → TokenShaper.Node ℕ)
    (hf : ∀ x, (f x).actualRate = x.actualRate) (late : List ℕ) :
    Accounted extra ({ s with shaper := s.shaper.mapAt f p }.onTimeout late) := by
  have h₁ := h.setShaper (Rose.map_mapAt hf p s.shaper)
  refine h₁.post fun task htask ↦ ?_
  obtain ⟨q, -, rfl⟩ := mem_map.mp htask
  rfl

theorem enqueue (h : Accounted [] s) (hr : s.Waits p r) (hs : s.enqueue c r clock = some s') :
    Accounted [] s' := by
  obtain ⟨x, hx, rfl, htokens⟩ := id hr
  rw [Cluster.enqueue, hx] at hs
  dsimp only at hs
  split at hs
  · cases hs
  split at hs
  · cases hs
    exact (h.setBackend none).refile
      (fun x ↦ (x.push r clock.ctime).updateQueueTimer clock.now) (fun _ ↦ rfl) _
  · obtain rfl := eq_of_serviceUnavailable hr hs
    exact h.observe _

theorem reschedule (h : Accounted [] s) (hplaced : Placed [r] s) (hr : s.Waits p r)
    (hnone : ∀ x ∈ s.members, ¬ x.Admits) (hs : s.reschedule c r clock = some s') :
    Accounted [] s' := by
  obtain ⟨x, hx, -⟩ := id hr
  rw [Cluster.reschedule, verifyTryCount_eq hplaced hx] at hs
  dsimp only at hs
  split at hs
  · cases hs
  · next hsched =>
    cases scheduled hsched with
    | taken hx hadmits => exact absurd hadmits (hnone _ hx)
    | refused hstatus => exact absurd rfl hstatus
  · next hne hsched =>
    cases scheduled hsched with
    | taken => exact absurd rfl hne
    | @refused _ n => exact (h.setNext n).enqueue (hr.congr rfl) hs

theorem exists_request (h : Accounted extra s) (hplaced : Placed hand s) {q : ℕ}
    (hq : q ∈ s.inFlight) : ∃ x, s.requests[q]? = some x := by
  rcases mem_append.mp hq with hq | hq
  · obtain ⟨a, ha, rfl⟩ := mem_map.mp hq
    obtain ⟨x, hx, -⟩ := h.tokens a ha
    exact ⟨x, hx⟩
  · obtain ⟨task, htask, hholder⟩ := mem_filterMap.mp hq
    obtain ⟨p, x, hx, -⟩ := hplaced.posted task htask
    cases task with
    | dequeued r m => exact ⟨x, some.inj hholder ▸ hx⟩
    | timedOut r => cases hholder

theorem arrive (h : Accounted [] s) (hplaced : Placed [] s) (p : Address) :
    Accounted [] { s with requests := s.requests ++ [{ bucket := p }] } := by
  have hkeep {q : ℕ} {x : Request} (hx : s.requests[q]? = some x) :
      (s.requests ++ [{ bucket := p }])[q]? = some x := by
    obtain ⟨hlt, -⟩ := List.getElem?_eq_some_iff.mp hx
    exact (getElem?_append_left hlt).trans hx
  refine h.congr rfl ?_ fun q hq ↦ ?_
  · refine congrArg (fun l : List Address ↦ (l : Multiset Address))
      (map_congr_left fun q hq ↦ ?_)
    obtain ⟨x, hx⟩ := h.exists_request hplaced ((append_nil s.inFlight) ▸ hq)
    exact (bucketOf_eq (s := { s with requests := s.requests ++ [{ bucket := p }] })
      (hkeep hx)).trans (bucketOf_eq hx).symm
  · obtain ⟨x, hx, htokens⟩ := h.tokens q hq
    exact ⟨x, hkeep hx, htokens⟩

theorem schedule (h : Accounted [] s) (hplaced : Placed [] s)
    (hcard : s.inFlight.length + 1 < 2 ^ 64) (hs : s.schedule c p clock = some s') :
    Accounted [] s' := by
  rw [Cluster.schedule] at hs
  split at hs
  · cases hs
  next bucket hbucket =>
  set r := s.requests.length with hr
  set s₁ : Cluster := { s with requests := s.requests ++ [{ bucket := p }] } with hs₁
  have hplaced₁ : Placed [r] s₁ := hplaced.arrive p
  have hx₁ : s₁.requests[r]? = some { bucket := p } := by simp [hs₁, hr]
  have h₁ : Accounted [] s₁ := h.arrive hplaced p
  have hr₁ : s₁.Waits p r := ⟨_, hx₁, rfl, rfl⟩
  have hcard₁ : s₁.inFlight.length + 1 < 2 ^ 64 := hcard
  clear_value s₁ r
  dsimp only at hs
  split at hs
  · obtain rfl := eq_of_serviceUnavailable hr₁ hs
    exact h₁.observe _
  split at hs
  · next hn =>
    have h₂ := h₁.get hcard₁ (bucketOf_eq hx₁) hn
    have hplaced₂ := hplaced₁.get p
    have hx₂ : ({ s₁ with shaper := (TokenShaper.get p 1 s₁.shaper).2 } : Cluster).requests[r]? =
      some { bucket := p } := hx₁
    generalize ({ s₁ with shaper := (TokenShaper.get p 1 s₁.shaper).2 } : Cluster) = s₂
      at h₂ hplaced₂ hx₂ hs
    have h₃ := h₂.setTokens hplaced₂.ne_of_processing 1
    have hx₃ := getElem?_setTokens hx₂ 1
    split at hs
    · cases hs
    · next hsched =>
      cases hs
      cases scheduled hsched with
      | @taken x n hmem hadmits =>
        exact (h₃.setNext n).handOver ⟨_, hx₃, rfl⟩ x
      | refused hstatus => exact absurd rfl hstatus
    · next hne hsched =>
      cases scheduled hsched with
      | taken => exact absurd rfl hne
      | @refused _ n =>
        split at hs
        · cases hs
        next t hput =>
        have h₄ := (h₃.setNext n).put (bucketOf_eq (x := { bucket := p, tokens := 1 }) hx₃) hput
        have h₅ := h₄.setTokens hplaced₂.ne_of_processing 0
        have hr₅ := waits_setTokens
          (s := { s₂.setTokens r 1 with next := n, shaper := t }) hx₃
        split at hs
        · obtain rfl := eq_of_serviceUnavailable hr₅ hs
          exact h₅.observe _
        · exact h₅.enqueue hr₅ hs
  · next hn =>
    have hzero : (TokenShaper.get p 1 s₁.shaper).2 = s₁.shaper :=
      get_eq_self h₁.ledger.counts (not_not.mp hn)
    rw [hzero] at hs
    split at hs
    · exact h₁.enqueue hr₁ hs
    · obtain rfl := eq_of_serviceUnavailable (hr₁.congr rfl) hs
      exact h₁.observe _

theorem giveBack (h : Accounted [] s) (hr : (r, m) ∈ s.processing) :
    Accounted [r] { s with processing := s.processing.erase (r, m) } := by
  refine h.congr rfl (held_eq rfl ?_) fun q hq ↦ h.tokens q (mem_of_mem_erase hq)
  have hperm := (perm_cons_erase hr).map Prod.fst
  rw [append_nil]
  exact (perm_append_singleton r _).trans (hperm.symm.append_right _)

theorem respondAll (h : Accounted [] s) (hplaced : Placed [] s)
    (hcard : s.inFlight.length + 1 < 2 ^ 64) {status : ℕ} (hr : (r, m) ∈ s.processing)
    (hs : onResponseReceived r m status { s with processing := s.processing.erase (r, m) } =
      some s') : Accounted [] s' := by
  have h₁ := (h.giveBack hr).setMember (m := m) fun x ↦ { x with load := x.load - 1 }
  have hplaced₁ := (hplaced.respond hr status).setMember (m := m)
    fun x ↦ { x with load := x.load - 1 }
  obtain ⟨x, hx, htokens⟩ := h.tokens _ hr
  rw [onResponseReceived] at hs
  split at hs
  · cases hs
  rw [onMessageEnd] at hs
  split at hs
  · cases hs
  next y hy =>
  have hxy : x = y := some.inj (hx.symm.trans hy)
  subst hxy
  rw [if_neg (by omega), htokens] at hs
  split at hs
  · next t _ hput =>
    obtain ⟨s₁, hrelease, rfl⟩ := map_eq_some_iff.mp hs
    rw [release] at hrelease
    split at hrelease
    · cases hrelease
    · have h₂ := (h₁.put (bucketOf_eq hx) hput).observe (.answered r status)
      have hle : ({ s with processing := s.processing.erase (r, m) } : Cluster).inFlight.length ≤
          s.inFlight.length := by
        simp only [inFlight, length_append, length_map]
        exact Nat.add_le_add_right length_erase_le _
      exact h₂.dequeueTo (hplaced₁.put hput) ((Nat.add_le_add_right hle 1).trans_lt hcard)
        (Placed.observe_dequeueTo hrelease)
  · cases hs

theorem onProcessingFailed (h : Accounted [r] s) (hplaced : Placed [r] s)
    (hnone : ∀ x ∈ s.members, ¬ x.Admits) (hr : s.HasToken r)
    (hs : s.onProcessingFailed c r clock = some s') : Accounted [] s' := by
  obtain ⟨x, hx, htokens⟩ := hr
  rw [Cluster.onProcessingFailed, hx] at hs
  dsimp only at hs
  split at hs
  · cases hs
  split at hs
  · cases hs
  next t hput =>
  have h₁ := (h.put (bucketOf_eq hx) hput).setTokens hplaced.ne_of_processing 0
  exact h₁.reschedule ((hplaced.put hput).setTokens 0)
    (waits_setTokens (s := { s with shaper := t }) hx) hnone hs

theorem take (h : Accounted [] s) {i : ℕ} {task : Task} (hi : s.posted[i]? = some task) :
    Accounted task.holder.toList { s with posted := s.posted.eraseIdx i } := by
  obtain ⟨hlt, rfl⟩ := List.getElem?_eq_some_iff.mp hi
  refine h.congr rfl (held_eq rfl ?_) h.tokens
  have hperm := (getElem_cons_eraseIdx_perm hlt).filterMap Task.holder
  rw [filterMap_cons] at hperm
  rw [inFlight, append_nil, append_assoc]
  refine (perm_append_comm.trans ?_).append_left _
  cases hholder : s.posted[i].holder with
  | none | some q =>
    rw [hholder] at hperm
    exact hperm

theorem runTask (h : Accounted [] s) (hplaced : Placed [] s) {i : ℕ} {task : Task}
    (hi : s.posted[i]? = some task)
    (hadmits : ∀ r m, task = .dequeued r m → ∀ x, s.member? m = some x → x.Admits)
    (hs : runTask c clock { s with posted := s.posted.eraseIdx i } task = some s') :
    Accounted [] s' := by
  have hplaced₁ := hplaced.take hi
  have h₁ := h.take hi
  obtain ⟨p, hr⟩ := hplaced.posted task (mem_of_getElem? hi)
  cases task with
  | timedOut r =>
    have hr' : ({ s with posted := s.posted.eraseIdx i } : Cluster).Waits p r := hr.congr rfl
    obtain rfl := eq_of_serviceUnavailable hr' hs
    exact h₁.observe _
  | dequeued r m =>
    obtain ⟨y, hy⟩ : ∃ y, s.requests[r]? = some y := ⟨_, hr.choose_spec.1⟩
    have hplaced₂ : Placed [r] { s with posted := s.posted.eraseIdx i } := hplaced₁
    have h₂ : Accounted [r] { s with posted := s.posted.eraseIdx i } := h₁
    have hx₂ := getElem?_setTokens (s := { s with posted := s.posted.eraseIdx i }) hy 1
    rw [Cluster.runTask] at hs
    split at hs
    · cases hs
    next x hx =>
    rw [tryProcess_of_admits (hadmits r m rfl x hx)] at hs
    have h₃ := (h₂.setTokens hplaced₂.ne_of_processing 1).handOver ⟨_, hx₂, rfl⟩ x
    obtain ⟨z, hz⟩ := exists_getElem?_handOver x hx₂
    dsimp only at hs
    rw [verifyTryCount_eq ((hplaced₂.setTokens 1).handOver x) hz] at hs
    cases hs
    exact h₃

end Accounted

/-! ### Members -/

namespace Named

theorem resized (h : s.Named) (hs : Resized s s') : s'.Named := by
  cases hs
  exact h.congr rfl rfl

theorem healthChanged (h : s.Named) (hs : HealthChanged m s s') : s'.Named := by
  have hset {s : Cluster} (h : s.Named) {f : Member → Member} (hf : ∀ x, (f x).id = x.id) :
      (s.setMember m f).Named := h.setMember fun x hx ↦ (hf x).trans hx
  cases hs with
  | resized hf hresized => exact (hset h hf).resized hresized
  | disabled hf hg hresized => exact hset ((hset h hf).resized hresized) hg
  | dequeued hf hresized hdequeue =>
    exact ((hset h hf).resized hresized).of_outline (outline_dequeueTo hdequeue)

theorem step {a : Action} (h : s.Named) (hs : s.step c a = some s') : s'.Named := by
  cases a with
  | addMember name capacity enabled =>
    cases hs
    exact h.addMember name capacity enabled
  | removeMember name =>
    cases hs
    exact h.removeMember name
  | setEnabled m value =>
    obtain ⟨x, -, rfl⟩ := map_eq_some_iff.mp hs
    exact h.setMember fun _ ↦ id
  | setCapacity m n =>
    obtain ⟨x, hx, hresized⟩ := setCapacity_eq hs
    refine Named.resized (h.setMember ?_) hresized
    exact fun _ _ ↦ (member?_eq_some hx).2
  | createBucket name rate ceil =>
    cases hs
    exact h.congr rfl rfl
  | logSuccess m =>
    obtain ⟨n, hs⟩ := logSuccess_eq hs
    refine Named.healthChanged (h.setMember ?_) hs
    exact fun _ ↦ id
  | logFailure m =>
    refine Named.healthChanged (h.setMember ?_) (Cluster.healthChanged hs)
    exact fun _ ↦ id
  | schedule p clock => exact h.of_outline (outline_schedule hs)
  | responded r m status =>
    obtain ⟨-, hs⟩ := ite_none_right_eq_some.1 hs
    rw [onResponseReceived] at hs
    split at hs
    · cases hs
    · have h₁ : (s.setMember m fun x ↦ { x with load := x.load - 1 }).Named :=
        h.setMember fun _ ↦ id
      exact h₁.of_outline ((outline_onMessageEnd hs).trans rfl)
  | failed r m clock =>
    obtain ⟨-, hs⟩ := ite_none_right_eq_some.1 hs
    obtain ⟨s₁, hs₁, hs⟩ := bind_eq_some_iff.mp hs
    obtain ⟨s₂, hs₂, rfl⟩ := map_eq_some_iff.mp hs₁
    have h₀ : ({ s with processing := s.processing.erase (r, m) }.observe
        (.failed r m)).Named := h.congr rfl rfl
    have h₂ : s₂.Named := Named.healthChanged
      (h₀.setMember (f := fun x ↦ { x with load := x.load - 1 }) fun _ ↦ id)
      (Cluster.healthChanged hs₂)
    exact h₂.of_outline ((outline_onProcessingFailed hs).trans rfl)
  | runTask i clock =>
    rw [Cluster.step] at hs
    split at hs
    · cases hs
    · exact h.of_outline ((outline_runTask hs).trans rfl)
  | updateQueueTimer p now =>
    obtain ⟨bucket, -, rfl⟩ := map_eq_some_iff.mp hs
    exact h.congr rfl rfl

theorem member?_eq (h : s.Named) {x : Member} (hx : x ∈ s.members) : s.member? x.id = some x := by
  obtain ⟨y, hy⟩ : ∃ y, s.member? x.id = some y := by
    rw [← isSome_iff_exists, member?, find?_isSome]
    exact ⟨x, hx, beq_self_eq_true _⟩
  obtain ⟨hmem, hid⟩ := member?_eq_some hy
  rw [hy, inj_on_of_nodup_map h.ids hmem hx hid]

end Named

theorem members_onHealthChanged {x : Member} {old : HealthState} (hx : s.member? m = some x)
    (hstate : x.state ≠ .online) (hs : s.onHealthChanged c m old = some s') :
    s'.members = s.members := by
  rw [onHealthChanged, hx] at hs
  dsimp only at hs
  split at hs
  · cases hs
    rfl
  split at hs
  · obtain ⟨-⟩ := resized hs
    rfl
  · cases hs
    rfl

theorem not_admits_of_setState (h : s.Named) {f : Member → Member} (hf : ∀ x, (f x).id = x.id)
    (hnone : ∀ x ∈ s.members, x.id ≠ m → ¬ x.Admits)
    (hs : (s.setMember m f).setState c m .offline = some s') : ∀ x ∈ s'.members, ¬ x.Admits := by
  have h₁ : (s.setMember m f).Named := h.setMember fun x hx ↦ (hf x).trans hx
  have hnone₁ : ∀ x ∈ (s.setMember m f).members, x.id ≠ m → ¬ x.Admits := by
    intro x hx hne
    obtain ⟨y, hy, rfl⟩ := mem_map.mp hx
    split at hne
    · next hid => exact absurd ((hf y).trans hid) hne
    · next hid => exact if_neg hid ▸ hnone y hy hid
  rw [setState] at hs
  split at hs
  · cases hs
  next x hx =>
  split at hs
  · next hstate =>
    cases hs
    intro y hy hadmits
    by_cases hid : y.id = m
    · have hxy : some y = some x := by rw [← h₁.member?_eq hy, hid, hx]
      rw [some.inj hxy] at hadmits
      exact absurd (hstate.symm.trans hadmits.2.1) (by decide)
    · exact hnone₁ y hy hid hadmits
  · rw [members_onHealthChanged (member?_setState hx .offline) (by simp) hs]
    intro y hy hadmits
    obtain ⟨z, hz, rfl⟩ := mem_map.mp hy
    split at hadmits
    · exact absurd hadmits.2.1 (by simp)
    · next hid => exact hnone₁ z hz hid hadmits

theorem requests_healthChanged (hs : HealthChanged m s s') : s'.requests = s.requests := by
  cases hs with
  | resized _ hresized | disabled _ _ hresized =>
    cases hresized
    rfl
  | dequeued _ hresized hdequeue =>
    cases hresized
    rw [dequeueTo] at hdequeue
    split at hdequeue <;> cases hdequeue <;> rfl

theorem hasToken_onFailure (h : Accounted [] s) (hr : (r, m) ∈ s.processing)
    (hs : onFailure c r m ({ s with processing := s.processing.erase (r, m) }.observe
      (.failed r m)) = some s') : s'.HasToken r := by
  obtain ⟨s₁, hs₁, rfl⟩ := map_eq_some_iff.mp hs
  obtain ⟨x, hx, htokens⟩ := h.tokens _ hr
  have hrequests : s₁.requests = s.requests :=
    (requests_healthChanged (healthChanged hs₁)).trans rfl
  exact ⟨_, getElem?_setRequest_self (hrequests ▸ hx) _, htokens⟩

/-! ### Runs -/

/-- A request that a member fails finds no other member, and one that was dequeued finds its
member ready; and fewer than `2 ^ 64` requests are in flight. -/
def Smooth (s : Cluster) (a : Action) : Prop :=
  s.inFlight.length + 1 < 2 ^ 64 ∧
  match a with
  | .failed _ m _ => ∀ x ∈ s.members, x.id ≠ m → ¬ x.Admits
  | .runTask i _ => ∀ r m, s.posted[i]? = some (.dequeued r m) →
      ∀ x, s.member? m = some x → x.Admits
  | _ => True

/-- The claims on tokens: where no closure is pending, the count of a bucket is the number of
requests of this bucket, or of one below it, that members process; each of these requests has
one token; and the assertion of `onProcessingFailed` holds of the request that a member fails. -/
structure TokensMatch (c : Settings) (s : Cluster) : Prop where
  counts : s.posted = [] → ∀ q x, s.shaper.label? q = some x →
    x.actualRate = s.processing.countP fun a ↦ q <+: s.bucketOf a.1
  tokens : ∀ a ∈ s.processing, s.HasToken a.1
  assertion : ∀ r m s₁, (r, m) ∈ s.processing →
    onFailure c r m ({ s with processing := s.processing.erase (r, m) }.observe (.failed r m)) =
      some s₁ → ∃ x, s₁.requests[r]? = some x ∧ x.tokens ≠ 0

theorem Accounted.step {a : Action} (h : Accounted [] s) (hplaced : Placed [] s)
    (hnamed : s.Named) (hok : s.Smooth a) (hs : s.step c a = some s') : Accounted [] s' := by
  obtain ⟨hcard, hok⟩ := hok
  cases a with
  | addMember name capacity enabled | removeMember name =>
    cases hs
    exact h.congr rfl rfl h.tokens
  | setEnabled m value =>
    obtain ⟨x, -, rfl⟩ := map_eq_some_iff.mp hs
    exact h.setMember _
  | setCapacity m n =>
    obtain ⟨x, -, hresized⟩ := setCapacity_eq hs
    exact (h.setMember _).resized hresized
  | createBucket name rate ceil =>
    cases hs
    exact ⟨h.ledger.createChild [] name rate ceil, h.tokens⟩
  | logSuccess m =>
    obtain ⟨n, hs⟩ := logSuccess_eq hs
    exact (h.setMember _).healthChanged (hplaced.setMember _) hcard hs
  | logFailure m =>
    exact (h.setMember _).healthChanged (hplaced.setMember _) hcard (Cluster.healthChanged hs)
  | schedule p clock => exact h.schedule hplaced hcard hs
  | responded r m status =>
    obtain ⟨hr, hs⟩ := ite_none_right_eq_some.1 hs
    exact h.respondAll hplaced hcard hr hs
  | failed r m clock =>
    obtain ⟨hr, hs⟩ := ite_none_right_eq_some.1 hs
    obtain ⟨s₁, hs₁, hs⟩ := bind_eq_some_iff.mp hs
    have htoken := hasToken_onFailure h hr hs₁
    obtain ⟨s₂, hs₂, rfl⟩ := map_eq_some_iff.mp hs₁
    have h₁ := (h.giveBack hr).observe (.failed r m)
    have hplaced₁ := hplaced.fail hr
    have hcard₁ : ({ s with processing := s.processing.erase (r, m) } : Cluster).inFlight.length +
        1 = s.inFlight.length := by
      have hpos := length_pos_of_mem hr
      simp only [inFlight, length_append, length_map, length_erase_of_mem hr]
      omega
    have h₂ := (h₁.setMember _).healthChanged (hplaced₁.setMember _)
      (by rw [← hcard₁] at hcard; exact hcard) (Cluster.healthChanged hs₂)
    have hplaced₂ := (hplaced₁.setMember _).healthChanged (Cluster.healthChanged hs₂)
    have hnamed₁ : ({ s with processing := s.processing.erase (r, m) }.observe
      (.failed r m)).Named := hnamed.congr rfl rfl
    have hnone := not_admits_of_setState (f := fun x ↦ { x with load := x.load - 1 }) hnamed₁
      (fun _ ↦ rfl) hok hs₂
    have hplaced₃ : Placed [r] (s₂.setBackend r none) := hplaced₂.setRequest fun _ ↦ rfl
    exact (h₂.setBackend none).onProcessingFailed hplaced₃ hnone htoken hs
  | runTask i clock =>
    rw [Cluster.step] at hs
    split at hs
    · cases hs
    · next hi =>
      refine h.runTask hplaced hi (fun r m htask ↦ ?_) hs
      exact hok r m (htask ▸ hi)
  | updateQueueTimer p now =>
    obtain ⟨bucket, -, rfl⟩ := map_eq_some_iff.mp hs
    exact h.refile (Node.updateQueueTimer now) (fun _ ↦ rfl) _

/-- **The tokens of a cluster are accounted for**, in every run in which the requests that
members fail or that are dequeued meet members as `Smooth` says. -/
theorem tokensMatch_of_reach (h : (clusters c).Reach Smooth s) : s.TokensMatch c := by
  have hinv : Accounted [] s ∧ s.Named := by
    induction h with
    | init =>
      refine ⟨⟨?_, nofun⟩, nodup_nil, nofun⟩
      exact Ledger.inv_init (actualRate_createRoot 0)
    | step hreach hok hs ih =>
      exact ⟨ih.1.step (placed_of_reach hreach) ih.2 hok hs, ih.2.step hs⟩
  refine ⟨fun hposted q x hx ↦ ?_, hinv.1.tokens, fun r m s₁ hr hs ↦ ?_⟩
  · rw [hinv.1.ledger.count q x hx, heldThrough, held, inFlight, hposted]
    simp [countP_map, Function.comp_def]
  · obtain ⟨y, hy, htokens⟩ := hasToken_onFailure hinv.1 hr hs
    exact ⟨y, hy, by omega⟩

theorem tokensMatch_served : (served [.handed 0 0]).TokensMatch eager :=
  tokensMatch_of_reach (reach_served ⟨by decide, trivial⟩ ⟨by decide, trivial⟩ ⟨by decide, trivial⟩)

/-- The token that was taken for a request in `dequeueTo` is not put back when the member cannot
take the request any more. -/
theorem not_tokensMatch : ¬ ∀ (c : Settings) (s : Cluster),
    (clusters c).Reach (fun _ _ ↦ True) s → s.TokensMatch c := by
  intro h
  have hdisabled : (clusters eager).Reach (fun _ _ ↦ True)
      { requeued with members := [{ lone .online 2 0 with enabled := false }] } :=
    reach_requeued.step (a := .setEnabled 0 false) trivial rfl
  have hwaits : (clusters eager).Reach (fun _ _ ↦ True)
      { requeued with
        shaper := root 1 1 [0], members := [{ lone .online 2 0 with enabled := false }], posted := [] } :=
    hdisabled.step (a := .runTask 0 ⟨0, 0⟩) trivial rfl
  exact absurd ((h _ _ hwaits).counts rfl [] _ rfl) (by decide)

end Cluster

end Xzero.Http.Client
