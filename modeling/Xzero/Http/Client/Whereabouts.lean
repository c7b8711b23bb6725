import Xzero.Http.Client.Capacity

/-!
# Where the requests of a cluster are

Between two callbacks a request waits in the queue of its bucket, or a closure that was posted
has it, or a member processes it, or it has been answered; it is in one of these places only
(**`Cluster.placed_of_reach`**). Inside a callback the request that this is about is in none of
them: it is at `hand`. So a request is answered at most once. Members take it once more than
they fail it, and as nothing ever increments `tryCount`, it is the number of failures and not
`maxRetryCount` that bounds this (**`Cluster.bounded_of_reach`**, **`Cluster.not_bounded`**).
-/

namespace Xzero.Http.Client

open TokenShaper List Option Rose Event Node Client.Task

def Event.isHanded (r : ℕ) : Event → Bool
  | .handed r' _ => r' == r
  | _ => false

def Event.isFailed (r : ℕ) : Event → Bool
  | .failed r' _ => r' == r
  | _ => false

def Event.isAnswered (r : ℕ) : Event → Bool
  | .answered r' _ => r' == r
  | _ => false

namespace Cluster

variable {c : Settings} {s s' : Cluster} {r m : ℕ} {clock : Clock} {p : Address} {hand : List ℕ}

/-- How often a member took a request. -/
def handed (r : ℕ) (s : Cluster) : ℕ := s.log.countP (isHanded r)

/-- How often a member failed a request. -/
def failures (r : ℕ) (s : Cluster) : ℕ := s.log.countP (isFailed r)

/-- How often a request was answered. -/
def answered (r : ℕ) (s : Cluster) : ℕ := s.log.countP (isAnswered r)

/-- In how many closures a request is. -/
def postedCount (r : ℕ) (s : Cluster) : ℕ := (s.posted.map request).count r

/-- How many members process a request. -/
def processingCount (r : ℕ) (s : Cluster) : ℕ := (s.processing.map Prod.fst).count r

/-- In how many places a request is. -/
def places (r : ℕ) (s : Cluster) : ℕ :=
  (waiting s.shaper).count r + s.postedCount r + s.processingCount r + s.answered r

/-- A request of a bucket, without a token. -/
def Waits (p : Address) (r : ℕ) (s : Cluster) : Prop :=
  ∃ x, s.requests[r]? = some x ∧ x.bucket = p ∧ x.tokens = 0

/-- Every request is in one place, or at hand. -/
structure Placed (hand : List ℕ) (s : Cluster) : Prop where
  once : ∀ r, s.places r + hand.count r ≤ if r < s.requests.length then 1 else 0
  handed_le : ∀ r, s.handed r ≤ s.failures r + s.processingCount r + s.answered r
  le_handed : ∀ r, s.failures r + s.processingCount r ≤ s.handed r
  queued : ∀ p l, queueAt s.shaper p = some l → ∀ r ∈ l, s.Waits p r
  posted : ∀ task ∈ s.posted, ∃ p, s.Waits p task.request
  tries : ∀ x ∈ s.requests, x.tryCount = 0
  turn : TokenShaper.InTurn s.shaper

/-! ### Moves -/

theorem Waits.setRequest {f : Request → Request} {q : ℕ} (h : s.Waits p q) (hq : q ≠ r) :
    (s.setRequest r f).Waits p q := by
  obtain ⟨x, hx, hbucket, htokens⟩ := h
  refine ⟨x, ?_, hbucket, htokens⟩
  rw [getElem?_setRequest, if_neg (Ne.symm hq), hx]

namespace Placed

theorem le_one (h : Placed hand s) (r : ℕ) : s.places r + hand.count r ≤ 1 := by
  have := h.once r
  split at this <;> omega

theorem congr (h : Placed hand s) (hshaper : s'.shaper = s.shaper)
    (hrequests : s'.requests = s.requests) (hprocessing : s'.processing = s.processing)
    (hposted : s'.posted = s.posted) (hlog : s'.log = s.log) : Placed hand s' := by
  obtain ⟨shaper, members, next, fresh, requests, processing, posted, log⟩ := s'
  subst hshaper hrequests hprocessing hposted hlog
  exact ⟨h.once, h.handed_le, h.le_handed, h.queued, h.posted, h.tries, h.turn⟩

theorem setShaper (h : Placed hand s) {t : TokenShaper.Tree ℕ}
    (ht : t.map TokenShaper.Node.queue = s.shaper.map TokenShaper.Node.queue)
    (hturn : TokenShaper.InTurn t) : Placed hand { s with shaper := t } := by
  refine ⟨fun r ↦ ?_, h.handed_le, h.le_handed, fun p l hl ↦ ?_, h.posted, h.tries, hturn⟩
  · rw [places, waiting_congr ht]
    exact h.once r
  · rw [queueAt_congr ht] at hl
    exact h.queued p l hl

theorem ne_of_queued (h : Placed [r] s) {l : List ℕ}
    (hl : queueAt s.shaper p = some l) {q : ℕ} (hq : q ∈ l) : q ≠ r := by
  rintro rfl
  have hpos := count_pos_iff.mpr (mem_waiting hl hq)
  have hone := h.le_one q
  rw [places, count_singleton_self] at hone
  omega

variable {task : Task}

theorem ne_of_posted (h : Placed [r] s) (htask : task ∈ s.posted) : task.request ≠ r := by
  rintro rfl
  have hpos := count_pos_iff.mpr (mem_map_of_mem (f := request) htask)
  have hone := h.le_one task.request
  rw [places, postedCount, count_singleton_self] at hone
  omega

theorem setRequest (h : Placed [r] s) {f : Request → Request}
    (hf : ∀ x, (f x).tryCount = x.tryCount) : Placed [r] (s.setRequest r f) := by
  refine ⟨fun q ↦ ?_, h.handed_le, h.le_handed, fun p l hl q hq ↦ ?_, fun task htask ↦ ?_,
    fun x hx ↦ ?_, h.turn⟩
  · have hlen : (s.setRequest r f).requests.length = s.requests.length := length_modify ..
    rw [hlen]
    exact h.once q
  · exact (h.queued p l hl q hq).setRequest (h.ne_of_queued hl hq)
  · obtain ⟨p, hp⟩ := h.posted task htask
    exact ⟨p, hp.setRequest (h.ne_of_posted htask)⟩
  · obtain ⟨i, hi⟩ := mem_iff_getElem?.mp hx
    rw [getElem?_setRequest] at hi
    split at hi
    · obtain ⟨y, hy, rfl⟩ := map_eq_some_iff.mp hi
      rw [hf, h.tries y (mem_of_getElem? hy)]
    · exact h.tries x (mem_of_getElem? hi)

theorem reassign (h : Placed hand s) {processing : List (ℕ × ℕ)} {e : Event} {hand' : List ℕ}
    (hmoves : ∀ q, (processing.map Prod.fst).count q + (if e.isAnswered q then 1 else 0) +
        hand'.count q = s.processingCount q + hand.count q ∧
      (if e.isHanded q then 1 else 0) + s.processingCount q ≤ (if e.isFailed q then 1 else 0) +
        (processing.map Prod.fst).count q + (if e.isAnswered q then 1 else 0) ∧
      (if e.isFailed q then 1 else 0) + (processing.map Prod.fst).count q ≤
        (if e.isHanded q then 1 else 0) + s.processingCount q) :
    Placed hand' ({ s with processing := processing }.observe e) := by
  refine ⟨fun q ↦ (h.once q).trans' ?_, fun q ↦ ?_, fun q ↦ ?_, h.queued, h.posted, h.tries, h.turn⟩
  all_goals
    have hmoves := hmoves q
    have hhanded := h.handed_le q
    have hfailed := h.le_handed q
    simp only [places, handed, failures, answered, postedCount, processingCount, observe,
      countP_append, countP_singleton] at hmoves hhanded hfailed ⊢
    omega

theorem setTokens (h : Placed [r] s) (n : ℕ) : Placed [r] (s.setTokens r n) :=
  h.setRequest fun _ ↦ rfl

theorem handOver (h : Placed [r] s) (x : Member) : Placed [] (s.handOver x r) := by
  have h₁ := h.setRequest (f := fun y ↦ { y with backend := some x.id }) fun _ ↦ rfl
  have h₂ : Placed [] ({ s.setBackend r (some x.id) with
      processing := (s.setBackend r (some x.id)).processing ++ [(r, x.id)] }.observe
        (.handed r x.id)) := by
    refine h₁.reassign fun q ↦ ?_
    simp only [map_append, map_singleton, count_append, isHanded,
      isFailed, isAnswered, count_singleton, count_nil, processingCount,
      setBackend, Bool.false_eq_true, if_false, beq_iff_eq]
    omega
  exact h₂.congr rfl rfl rfl rfl rfl

theorem answer (h : Placed [r] s) (status : ℕ) : Placed [] (s.observe (.answered r status)) := by
  refine h.reassign fun q ↦ ?_
  simp only [isHanded, isFailed, isAnswered, count_singleton,
    count_nil, processingCount, Bool.false_eq_true, if_false, beq_iff_eq]
  omega

theorem count_erase_processing (hr : (r, m) ∈ s.processing) (q : ℕ) :
    ((s.processing.erase (r, m)).map Prod.fst).count q + (if r = q then 1 else 0) =
      s.processingCount q := by
  have hperm := ((perm_cons_erase hr).map Prod.fst).count_eq q
  rw [map_cons, count_cons] at hperm
  simpa [processingCount] using hperm.symm

theorem fail (h : Placed [] s) (hr : (r, m) ∈ s.processing) :
    Placed [r] ({ s with processing := s.processing.erase (r, m) }.observe (.failed r m)) := by
  refine h.reassign fun q ↦ ?_
  have := count_erase_processing hr q
  simp only [isHanded, isFailed, isAnswered, count_singleton,
    count_nil, Bool.false_eq_true, if_false, beq_iff_eq]
  omega

theorem respond (h : Placed [] s) (hr : (r, m) ∈ s.processing) (status : ℕ) :
    Placed [] ({ s with processing := s.processing.erase (r, m) }.observe
      (.answered r status)) := by
  refine h.reassign fun q ↦ ?_
  have := count_erase_processing hr q
  simp only [isHanded, isFailed, isAnswered, count_nil, Bool.false_eq_true, if_false, beq_iff_eq]
  omega

theorem arrive (h : Placed [] s) (p : Address) :
    Placed [s.requests.length] { s with requests := s.requests ++ [{ bucket := p }] } := by
  have hwaits {p' : Address} {q : ℕ} (hq : s.Waits p' q) :
      ({ s with requests := s.requests ++ [{ bucket := p }] } : Cluster).Waits p' q := by
    obtain ⟨x, hx, hrest⟩ := hq
    obtain ⟨hlt, -⟩ := List.getElem?_eq_some_iff.mp hx
    exact ⟨x, (getElem?_append_left hlt).trans hx, hrest⟩
  refine ⟨fun q ↦ ?_, h.handed_le, h.le_handed, fun p' l hl q hq ↦ hwaits (h.queued p' l hl q hq),
    fun task htask ↦ ?_, fun x hx ↦ ?_, h.turn⟩
  · have honce := h.once q
    have hplaces : ({ s with requests := s.requests ++ [{ bucket := p }] } : Cluster).places q =
        s.places q := rfl
    rw [hplaces, count_singleton, length_append, length_singleton]
    rw [count_nil] at honce
    simp only [beq_iff_eq]
    split_ifs at honce ⊢ <;> omega
  · obtain ⟨p', hp'⟩ := h.posted task htask
    exact ⟨p', hwaits hp'⟩
  · rcases mem_append.mp hx with hx | hx
    · exact h.tries x hx
    · rw [mem_singleton.mp hx]

theorem take (h : Placed [] s) {i : ℕ} (hi : s.posted[i]? = some task) :
    Placed [task.request] { s with posted := s.posted.eraseIdx i } := by
  obtain ⟨hlt, rfl⟩ := List.getElem?_eq_some_iff.mp hi
  refine ⟨fun q ↦ (h.once q).trans' ?_, h.handed_le, h.le_handed, h.queued, fun task htask ↦ ?_,
    h.tries, h.turn⟩
  · have hperm := ((getElem_cons_eraseIdx_perm hlt).map request).count_eq q
    rw [map_cons, ← singleton_append, count_append] at hperm
    simp only [places, postedCount, processingCount, answered, ← hperm, count_nil]
    omega
  · exact h.posted task (mem_of_mem_eraseIdx htask)

section

variable (h : Placed hand s) {x : TokenShaper.Node ℕ} (hx : s.shaper.label? p = some x)
include h hx

variable {hand' : List ℕ}

theorem refile {f : TokenShaper.Node ℕ → TokenShaper.Node ℕ}
    (hoffset : ∀ x, (f x).dequeueOffset = x.dequeueOffset) {late : List ℕ}
    (hcount : ∀ q, ((f x).queue.map TokenShaper.QueueItem.token).count q + late.count q +
      hand'.count q = (x.queue.map TokenShaper.QueueItem.token).count q + hand.count q)
    (hqueue : ∀ q ∈ (f x).queue.map TokenShaper.QueueItem.token, s.Waits p q)
    (hlate : ∀ q ∈ late, s.Waits p q) :
    Placed hand' ({ s with shaper := s.shaper.mapAt f p }.onTimeout late) := by
  refine ⟨fun q ↦ (h.once q).trans' ?_, h.handed_le, h.le_handed, fun p' l hl q hq ↦ ?_,
    fun task htask ↦ ?_, h.tries, ?_⟩
  · have hwaiting := count_waiting_mapAt hx f q
    have hcount := hcount q
    have htimed : request ∘ timedOut = id := rfl
    simp only [places, postedCount, processingCount, answered, onTimeout, List.map_append,
      List.map_map, htimed, List.map_id, List.count_append]
    omega
  · have hl' : queueAt (s.shaper.mapAt f p) p' = some l := hl
    rw [queueAt_mapAt] at hl'
    split at hl'
    · next hp =>
      subst hp
      rw [hx, Option.map_some, Option.some.injEq] at hl'
      exact hqueue q (hl'.symm ▸ hq)
    · exact h.queued p' l hl' q hq
  · rcases List.mem_append.mp htask with htask | htask
    · exact h.posted task htask
    · obtain ⟨q, hq, rfl⟩ := List.mem_map.mp htask
      exact ⟨p, hlate q hq⟩
  · refine h.turn.congr ?_
    exact (map_mapAt hoffset p s.shaper).symm

theorem expire {g : TokenShaper.Node ℕ → TokenShaper.Node ℕ} {now : ℕ}
    (hoffset : ∀ x, (g x).dequeueOffset = x.dequeueOffset)
    (hcount : ∀ q, ((g x).queue.map TokenShaper.QueueItem.token).count q + hand'.count q =
      (x.queue.map TokenShaper.QueueItem.token).count q + hand.count q)
    (hqueue : ∀ q ∈ (g x).queue.map TokenShaper.QueueItem.token, s.Waits p q) :
    Placed hand' ({ s with shaper := s.shaper.mapAt (fun x ↦ (g x).updateQueueTimer now) p
      }.onTimeout ((g x).timedOut now)) := by
  have hsplit := (g x).timedOut_append now
  refine h.refile (f := fun x ↦ (g x).updateQueueTimer now) hx hoffset (fun q ↦ ?_)
    (fun q hq ↦ hqueue q ?_) (fun q hq ↦ hqueue q ?_)
  · have := hcount q
    rw [← hsplit, count_append] at this
    omega
  · rw [← hsplit]
    exact mem_append_right _ hq
  · rw [← hsplit]
    exact mem_append_left _ hq

end

theorem post (h : Placed (task.request :: hand) s)
    (hwaits : s.Waits p task.request) : Placed hand { s with posted := s.posted ++ [task] } := by
  refine ⟨fun q ↦ (h.once q).trans' ?_, h.handed_le, h.le_handed, h.queued, fun task' htask ↦ ?_,
    h.tries, h.turn⟩
  · simp only [places, postedCount, processingCount, answered, map_append, map_singleton,
      count_append, count_cons, count_nil]
    omega
  · rcases mem_append.mp htask with htask | htask
    · exact h.posted task' htask
    · rw [mem_singleton.mp htask]
      exact ⟨p, hwaits⟩

section

variable (h : Placed hand s)
include h

theorem dequeueTo (hs : s.dequeueTo m = some s') : Placed hand s' := by
  obtain ⟨found, t, hdequeue, hout, -⟩ :=
    dequeueWithin_spec (at?_nil s.shaper) le_rfl h.turn
  rw [Cluster.dequeueTo, dequeue, hdequeue] at hs
  cases hout with
  | nothing hsame hturn =>
    cases hs
    exact h.setShaper (hsame.map_eq rfl) hturn
  | @item u p x item rest _ hx hqueue _ hsame hturn =>
    cases hs
    -- before the request is taken from its queue, only counts and turns have changed
    have hmap : (u.along (increment 1) p).map queue = s.shaper.map queue := by
      rw [map_along (f := queue) (g := increment 1) (fun _ ↦ rfl), hsame.map_eq rfl]
    have hturn' : InTurn (u.along (increment 1) p) := by
      refine hturn.congr ?_
      rw [map_along (f := dequeueOffset)
        (g := increment 1) (fun _ ↦ rfl)]
    have h₁ := h.setShaper hmap hturn'
    obtain ⟨y, hy, hyqueue⟩ : ∃ y, (u.along (increment 1) p).label? p = some y ∧
        y.queue = item :: rest := by
      rw [← map_eq_some_iff, ← label?_map, hmap, label?_map, hx, map_some, hqueue]
    have hwaits := h₁.queued p _ (by rw [queueAt, hy, map_some, hyqueue])
    have h₂ : Placed (item.token :: hand) ({ s with
        shaper := (u.along (increment 1) p).mapAt popFront p
      }.onTimeout []) := by
      refine h₁.refile (f := popFront) hy (fun _ ↦ rfl) (fun q ↦ ?_)
        (fun q hq ↦ hwaits q ?_) (fun q hq ↦ absurd hq not_mem_nil)
      · simp only [popFront, hyqueue, tail_cons, map_cons,
          count_cons, count_nil]
        omega
      · simp only [popFront, hyqueue, tail_cons] at hq
        exact mem_cons_of_mem _ hq
    have h₃ : Placed ((dequeued item.token m).request :: hand) { s with
        shaper := (u.along (increment 1) p).mapAt popFront p } :=
      h₂.congr rfl rfl rfl (append_nil _).symm rfl
    exact h₃.post (hwaits item.token (mem_cons_self ..))

theorem resized (hs : Resized s s') : Placed hand s' := by
  obtain ⟨ht⟩ := hs
  exact h.setShaper (ht _ fun _ _ _ ↦ rfl) (h.turn.congr (ht _ fun _ _ _ ↦ rfl).symm)

theorem setMember (f : Member → Member) : Placed hand (s.setMember m f) :=
  h.congr rfl rfl rfl rfl rfl

theorem setNext (n : ℕ) : Placed hand { s with next := n } :=
  h.congr rfl rfl rfl rfl rfl

theorem healthChanged (hs : HealthChanged m s s') : Placed hand s' := by
  cases hs with
  | resized _ hresized => exact (h.setMember _).resized hresized
  | disabled _ _ hresized => exact ((h.setMember _).resized hresized).setMember _
  | dequeued _ hresized hdequeue => exact ((h.setMember _).resized hresized).dequeueTo hdequeue

end

end Placed

/-! ### Callbacks -/

theorem onMessageEnd_eq {status : ℕ} (hr : s.Waits p r) :
    s.onMessageEnd r status = some (s.observe (.answered r status)) := by
  obtain ⟨x, hx, -, htokens⟩ := hr
  rw [onMessageEnd, hx]
  exact if_pos htokens

theorem eq_of_serviceUnavailable {status : ℕ} (hr : s.Waits p r)
    (hs : s.serviceUnavailable r status = some s') : s.observe (.answered r status) = s' :=
  some.inj ((onMessageEnd_eq hr).symm.trans hs)

variable {x : Request}

theorem verifyTryCount_eq (h : Placed hand s) (hx : s.requests[r]? = some x) :
    s.verifyTryCount c r = some (true, s) := by
  rw [verifyTryCount, hx]
  dsimp only
  rw [h.tries x (mem_of_getElem? hx), if_pos (Nat.zero_le _)]

theorem Waits.congr (h : s.Waits p r) (hs : s'.requests = s.requests) : s'.Waits p r := by
  obtain ⟨x, hx, hrest⟩ := h
  exact ⟨x, hs ▸ hx, hrest⟩

theorem Waits.setBackend (h : s.Waits p r) (b : Option ℕ) : (s.setBackend r b).Waits p r := by
  obtain ⟨x, hx, hbucket, htokens⟩ := h
  exact ⟨_, getElem?_setRequest_self hx _, hbucket, htokens⟩

theorem getElem?_setTokens (hx : s.requests[r]? = some x) (n : ℕ) :
    (s.setTokens r n).requests[r]? = some { x with tokens := n } :=
  getElem?_setRequest_self hx _

theorem exists_getElem?_handOver {y : Request} (x : Member) (hy : s.requests[r]? = some y) :
    ∃ z, (s.handOver x r).requests[r]? = some z :=
  ⟨_, getElem?_setRequest_self (s := s.setMember x.id _) hy _⟩

theorem waits_setTokens (hx : s.requests[r]? = some x) : (s.setTokens r 0).Waits x.bucket r :=
  ⟨_, getElem?_setTokens hx 0, rfl, rfl⟩

namespace Placed

theorem put (h : Placed hand s) {n : ℕ} {t : TokenShaper.Tree ℕ}
    (ht : put p n s.shaper = some t) : Placed hand { s with shaper := t } :=
  h.setShaper (map_put (fun _ ↦ rfl) ht) (h.turn.congr (map_put (fun _ ↦ rfl) ht).symm)

theorem get (h : Placed hand s) (p : Address) :
    Placed hand { s with shaper := (get p 1 s.shaper).2 } :=
  h.setShaper (map_get (fun _ ↦ rfl) p s.shaper)
    (h.turn.congr (map_get (fun _ ↦ rfl) p s.shaper).symm)

theorem enqueue (h : Placed [r] s) (hr : s.Waits p r) (hs : s.enqueue c r clock = some s') :
    Placed [] s' := by
  obtain ⟨x, hx, rfl, htokens⟩ := id hr
  rw [Cluster.enqueue, hx] at hs
  dsimp only at hs
  split at hs
  · cases hs
  · next bucket hbucket =>
    split at hs
    · cases hs
      have h₁ : Placed [r] (s.setBackend r none) := h.setRequest fun _ ↦ rfl
      have hwaits (q : ℕ) (hq : q ∈ (bucket.push r clock.ctime).queue.map
          QueueItem.token) : (s.setBackend r none).Waits x.bucket q := by
        rw [push, map_append, mem_append] at hq
        rcases hq with hq | hq
        · exact h₁.queued x.bucket _ (by
            rw [queueAt]; exact congrArg (Option.map _) hbucket) q hq
        · rw [map_singleton, mem_singleton] at hq
          exact hq ▸ hr.setBackend none
      have hlate : enqueueTimedOut x.bucket r clock.ctime clock.now s.shaper =
          (bucket.push r clock.ctime).timedOut clock.now := by
        rw [enqueueTimedOut, hbucket]
        rfl
      rw [hlate]
      refine h₁.expire hbucket (fun _ ↦ rfl) (fun q ↦ ?_) hwaits
      rw [push, map_append, count_append]
      rfl
    · obtain rfl := eq_of_serviceUnavailable hr hs
      exact h.answer 503

theorem reschedule (h : Placed [r] s) (hr : s.Waits p r)
    (hs : s.reschedule c r clock = some s') : Placed [] s' := by
  obtain ⟨x, hx, -⟩ := id hr
  rw [Cluster.reschedule, verifyTryCount_eq h hx] at hs
  dsimp only at hs
  split at hs
  · cases hs
  · next hsched =>
    cases hs
    cases scheduled hsched with
    | taken => exact (h.setNext _).handOver _
    | refused hstatus => exact absurd rfl hstatus
  · next hne hsched =>
    cases scheduled hsched with
    | taken => exact absurd rfl hne
    | @refused _ n => exact (h.setNext n).enqueue (hr.congr rfl) hs

theorem schedule (h : Placed [] s) (hs : s.schedule c p clock = some s') : Placed [] s' := by
  rw [Cluster.schedule] at hs
  split at hs
  · cases hs
  next bucket hbucket =>
  have h₁ := h.arrive p
  have hr : ({ s with requests := s.requests ++ [{ bucket := p }] } : Cluster).Waits p
      s.requests.length := ⟨{ bucket := p }, by simp, rfl, rfl⟩
  dsimp only at hs
  split at hs
  · obtain rfl := eq_of_serviceUnavailable hr hs
    exact h₁.answer 503
  set s₁ : Cluster := { s with
    requests := s.requests ++ [{ bucket := p }], shaper := (TokenShaper.get p 1 s.shaper).2 }
  have h₂ : Placed [s.requests.length] s₁ := h₁.get p
  have hr₂ : s₁.Waits p s.requests.length := hr
  split at hs
  · split at hs
    · cases hs
    · next hsched =>
      cases hs
      cases scheduled hsched with
      | taken => exact ((h₂.setTokens 1).setNext _).handOver _
      | refused hstatus => exact absurd rfl hstatus
    · next hne hsched =>
      cases scheduled hsched with
      | taken => exact absurd rfl hne
      | @refused _ n =>
        obtain ⟨x, hx, hbucket, -⟩ := hr₂
        have h₃ := (h₂.setTokens 1).setNext n
        have hx₃ : ({ s₁.setTokens s.requests.length 1 with next := n } : Cluster).requests[
          s.requests.length]? = some { x with tokens := 1 } := getElem?_setTokens hx 1
        generalize ({ s₁.setTokens s.requests.length 1 with next := n } : Cluster) = s₂ at h₃ hx₃ hs
        split at hs
        · cases hs
        next t hput =>
        have h₄ := (h₃.put hput).setTokens 0
        have hr₄ := waits_setTokens (s := { s₂ with shaper := t }) hx₃
        split at hs
        · obtain rfl := eq_of_serviceUnavailable hr₄ hs
          exact h₄.answer 503
        · exact h₄.enqueue hr₄ hs
  · split at hs
    · exact h₂.enqueue hr₂ hs
    · obtain rfl := eq_of_serviceUnavailable hr₂ hs
      exact h₂.answer 503

theorem onProcessingFailed (h : Placed [r] s) (hs : s.onProcessingFailed c r clock = some s') :
    Placed [] s' := by
  rw [Cluster.onProcessingFailed] at hs
  split at hs
  · cases hs
  next x hx =>
  split at hs
  · cases hs
  split at hs
  · cases hs
  next t hput =>
  have hr := waits_setTokens (s := { s with shaper := t }) hx
  exact ((h.put hput).setTokens 0).reschedule hr hs

theorem runTask (h : Placed [] s) {i : ℕ} {task : Task} (hi : s.posted[i]? = some task)
    (hs : runTask c clock { s with posted := s.posted.eraseIdx i } task = some s') :
    Placed [] s' := by
  have h₁ := h.take hi
  obtain ⟨p, hr⟩ := h.posted task (mem_of_getElem? hi)
  replace hr : ({ s with posted := s.posted.eraseIdx i } : Cluster).Waits p task.request :=
    hr.congr rfl
  generalize ({ s with posted := s.posted.eraseIdx i } : Cluster) = s₁ at h₁ hr hs
  cases task with
  | timedOut r =>
    obtain rfl := eq_of_serviceUnavailable hr hs
    exact h₁.answer 504
  | dequeued r m =>
    have h₁' : Placed [r] s₁ := h₁
    obtain ⟨y, hy⟩ : ∃ y, s₁.requests[r]? = some y := ⟨_, hr.choose_spec.1⟩
    rw [Cluster.runTask] at hs
    split at hs
    · cases hs
    next x _ =>
    by_cases hadmits : x.Admits
    · rw [tryProcess_of_admits hadmits] at hs
      have h₂ := (h₁'.setTokens 1).handOver x
      dsimp only at hs
      obtain ⟨z, hz⟩ := exists_getElem?_handOver x (getElem?_setTokens hy 1)
      rw [verifyTryCount_eq h₂ hz] at hs
      cases hs
      exact h₂
    · obtain ⟨e, he, htry⟩ := tryProcess_of_not_admits hadmits
      rw [htry] at hs
      have h₂ := (h₁'.setTokens 1).setTokens 0
      have hr₂ := waits_setTokens (getElem?_setTokens hy 1)
      cases e with
      | success => exact absurd rfl he
      | unavailable | overloaded => exact h₂.reschedule hr₂ hs

theorem observe_dequeueTo {e : Event} (hs : s.dequeueTo m = some s') :
    (s.observe e).dequeueTo m = some (s'.observe e) := by
  rw [Cluster.dequeueTo] at hs ⊢
  have hshaper : (s.observe e).shaper = s.shaper := rfl
  rw [hshaper]
  split at hs
  · cases hs
  · cases hs
    rfl
  · cases hs
    rfl

theorem respondAll (h : Placed [] s) {status : ℕ} (hr : (r, m) ∈ s.processing)
    (hs : onResponseReceived r m status { s with processing := s.processing.erase (r, m) } =
      some s') : Placed [] s' := by
  have h₁ := (h.respond hr status).setMember (m := m) fun x ↦ { x with load := x.load - 1 }
  rw [onResponseReceived] at hs
  split at hs
  · cases hs
  rw [onMessageEnd] at hs
  split at hs
  · cases hs
  split at hs
  · cases hs
    exact h₁
  split at hs
  · next hput =>
    obtain ⟨s₁, hrelease, rfl⟩ := map_eq_some_iff.mp hs
    rw [release] at hrelease
    split at hrelease
    · cases hrelease
    · exact (h₁.put hput).dequeueTo (observe_dequeueTo hrelease)
  · cases hs

theorem step {a : Action} (h : Placed [] s) (hs : s.step c a = some s') : Placed [] s' := by
  cases a with
  | addMember name capacity enabled | removeMember name =>
    cases hs
    exact h.congr rfl rfl rfl rfl rfl
  | setEnabled m value =>
    obtain ⟨x, -, rfl⟩ := map_eq_some_iff.mp hs
    exact h.setMember _
  | setCapacity m n =>
    obtain ⟨x, -, hresized⟩ := setCapacity_eq hs
    exact (h.setMember _).resized hresized
  | createBucket name rate ceil =>
    cases hs
    obtain ⟨v, hv, -, -, -, ht⟩ | ⟨e, -, ht⟩ :=
      createChild_cases [] name rate ceil s.shaper
    · rw [ht]
      refine ⟨fun q ↦ ?_, h.handed_le, h.le_handed, fun p l hl q hq ↦ ?_, h.posted, h.tries,
        h.turn.graft hv _ rfl⟩
      · have honce := h.once q
        rw [places, ← waiting_graft hv (x := v.label.child name rate ceil) rfl] at honce
        exact honce
      · have hl' : ((s.shaper.graft [] (.node (v.label.child name rate ceil) [])).label? p).map
          (fun x ↦ x.queue.map QueueItem.token) = some l := hl
        rw [label?_graft hv] at hl'
        split at hl'
        · cases hl'
          exact absurd hq not_mem_nil
        · exact h.queued p l hl' q hq
    · rwa [ht]
  | logSuccess m =>
    obtain ⟨n, hs⟩ := logSuccess_eq hs
    exact (h.setMember _).healthChanged hs
  | logFailure m => exact (h.setMember _).healthChanged (Cluster.healthChanged hs)
  | schedule p clock => exact h.schedule hs
  | responded r m status =>
    obtain ⟨hr, hs⟩ := ite_none_right_eq_some.1 hs
    exact h.respondAll hr hs
  | failed r m clock =>
    obtain ⟨hr, hs⟩ := ite_none_right_eq_some.1 hs
    obtain ⟨s₁, hs₁, hs⟩ := bind_eq_some_iff.mp hs
    obtain ⟨s₂, hs₂, rfl⟩ := map_eq_some_iff.mp hs₁
    have h₂ := ((h.fail hr).setMember _).healthChanged (Cluster.healthChanged hs₂)
    have h₃ : Placed [r] (s₂.setBackend r none) := h₂.setRequest fun _ ↦ rfl
    exact h₃.onProcessingFailed hs
  | runTask i clock =>
    rw [Cluster.step] at hs
    split at hs
    · cases hs
    · next hi => exact h.runTask hi hs
  | updateQueueTimer p now =>
    obtain ⟨bucket, hbucket, rfl⟩ := map_eq_some_iff.mp hs
    refine h.expire hbucket (fun _ ↦ rfl) (fun _ ↦ rfl) fun q hq ↦ ?_
    exact h.queued p _ (by rw [queueAt, hbucket]; rfl) q hq

end Placed

variable {ok : Cluster → Action → Prop}

/-- **Every request is in one place**, after any run. -/
theorem placed_of_reach (h : (clusters c).Reach ok s) : Placed [] s := by
  induction h with
  | init =>
    refine ⟨fun q ↦ ?_, fun q ↦ le_rfl, fun q ↦ le_rfl, fun p l hl q hq ↦ ?_, by simp [clusters],
      by simp [clusters], ?_⟩
    · simp [clusters, places, createRoot, waiting, Rose.flatten,
        flattenAll, postedCount, processingCount, answered]
    · cases p with
      | nil =>
        cases hl
        exact absurd hq not_mem_nil
      | cons i p => simp [clusters, createRoot, queueAt,
          label?_cons] at hl
    · exact forall_node.mpr ⟨le_rfl, by rintro _ ⟨⟩⟩
  | step _ _ hs ih => exact ih.step hs

/-! ### Responses and retries -/

/-- A request is answered at most once, and taken by members at most once more than it may be
retried. -/
def Bounded (c : Settings) (r : ℕ) (s : Cluster) : Prop :=
  s.answered r ≤ 1 ∧ s.handed r ≤ c.maxRetryCount + 1

instance : Decidable (s.Bounded c r) := inferInstanceAs (Decidable (_ ∧ _))

/-- **A request is answered once and its retries are bounded**, in every run in which members
fail it no more often than it may be retried. -/
theorem bounded_of_reach (h : (clusters c).Reach (fun _ _ ↦ True) s)
    (hfailures : s.failures r ≤ c.maxRetryCount) : s.Bounded c r := by
  have hplaced := placed_of_reach h
  have hone := hplaced.le_one r
  have hhanded := hplaced.handed_le r
  rw [places, count_nil] at hone
  exact ⟨by omega, by omega⟩

/-- The request of a cluster with one member is with the member. -/
def served (log : List Event) : Cluster where
  shaper := root 1 1 []
  members := [lone .online 1 1]
  fresh := 1
  requests := [{ bucket := [], backend := some 0, tokens := 1 }]
  processing := [(0, 0)]
  log := log

theorem reach_served (hadd : ok (clusters eager).init (.addMember "a" 1 true))
    (hup : ok (single 0 (lone .undefined 0 0)) (.logSuccess 0))
    (hschedule : ok (single 1 (lone .online 1 0)) (.schedule [] ⟨0, 0⟩)) :
    (clusters eager).Reach ok (served [.handed 0 0]) :=
  (reach_single hadd hup).step hschedule rfl

theorem bounded_served : (served [.handed 0 0]).Bounded eager 0 :=
  bounded_of_reach (reach_served trivial trivial trivial) (by decide)

/-- The request failed, waits, and is given to the member when it comes up again. -/
def requeued : Cluster where
  shaper := root 1 1 []
  members := [lone .online 2 0]
  fresh := 1
  next := 1
  requests := [{ bucket := [] }]
  posted := [.dequeued 0 0]
  log := [.handed 0 0, .failed 0 0]

theorem reach_requeued : (clusters eager).Reach (fun _ _ ↦ True) requeued := by
  have hfailed : (clusters eager).Reach (fun _ _ ↦ True) { requeued with
      shaper := root 0 0 [0], members := [lone .offline 1 0], posted := [] } := by
    refine (reach_served trivial trivial trivial).step (a := .failed 0 0 ⟨0, 0⟩) trivial ?_
    have hdown := setState_offline (c := eager) (m := 0) (x := lone .online 1 0)
      (s := { served [.handed 0 0, .failed 0 0] with
        members := [lone .online 1 0], processing := [] })
      rfl rfl rfl (rfl : root 1 1 [] = _) le_rfl (by decide)
    have hstep : (clusters eager).step (served [.handed 0 0]) (.failed 0 0 ⟨0, 0⟩) =
      ((setState eager 0 .offline { served [.handed 0 0, .failed 0 0] with
        members := [lone .online 1 0], processing := [] }).map (setBackend 0 none)).bind
          (onProcessingFailed eager 0 ⟨0, 0⟩) := rfl
    rw [hstep, hdown]
    rfl
  refine hfailed.step (a := .logSuccess 0) trivial ?_
  exact setState_online (c := eager) (m := 0) (x := lone .offline 2 0)
    (s := { requeued with
      shaper := root 0 0 [0], members := [lone .offline 2 0], posted := [] })
    rfl (by decide) rfl rfl (rfl : root 0 0 [0] = _) (by decide)

/-- **A request that waits or was posted is nowhere else**, and was failed by all who took it. -/
theorem failed_of_waiting (h : (clusters c).Reach ok s)
    (hr : r ∈ waiting s.shaper ++ s.posted.map request) :
    s.handed r = s.failures r ∧ s.processingCount r = 0 ∧ s.answered r = 0 := by
  have hplaced := placed_of_reach h
  have hone := hplaced.le_one r
  have hle := hplaced.handed_le r
  have hge := hplaced.le_handed r
  have hpos := count_pos_iff.2 hr
  rw [count_append] at hpos
  rw [places, postedCount] at hone
  omega

theorem failed_requeued : requeued.answered 0 = 0 :=
  (failed_of_waiting reach_requeued mem_cons_self).2.2

/-- Nothing counts the tries. -/
theorem not_bounded : ¬ ∀ (c : Settings) (s : Cluster) (r : ℕ),
    (clusters c).Reach (fun _ _ ↦ True) s → s.Bounded c r := by
  intro h
  have htwice : (clusters eager).Reach (fun _ _ ↦ True)
      { served [.handed 0 0, .failed 0 0, .handed 0 0] with
        members := [lone .online 2 1], next := 1 } :=
    reach_requeued.step (a := .runTask 0 ⟨0, 0⟩) trivial rfl
  exact absurd (h _ _ 0 htwice) (by decide)

end Cluster

end Xzero.Http.Client
