import Xzero.Raft.Entries

/-!
# What an input can do

One inversion for the whole server: `Effect` lists every branch a handler can take, with its guard
and its outcome, and `handle_effect` says that nothing else happens. The invariants of later
modules never unfold a handler; they go through `Effect`, or through the readings of it below that
follow a single component — the term, the log, the recorded events, the packets sent.
-/

namespace Xzero.Raft

open Option List MemoryStore

variable {σ : Type}

/-- The events that `applyLogs` records. -/
def Event.IsApply : Event → Prop
  | .applied .. | .replied .. => True
  | _ => False

namespace Server

/-- The request passes the two checks that precede any change of the log. -/
def Accepts (s : Server σ) (req : AppendEntriesRequest) : Prop :=
  s.currentTerm ≤ req.term ∧ s.getLogTerm req.prevLogIndex = req.prevLogTerm

instance (s : Server σ) (req : AppendEntriesRequest) : Decidable (s.Accepts req) :=
  inferInstanceAs (Decidable (_ ∧ _))

/-- The vote request is answered with `voteGranted`: its term is not stale, and in that term the
server has not voted, or has voted for the same candidate under a smaller last log term. -/
def Grants (s : Server σ) (req : VoteRequest) : Prop :=
  s.currentTerm < req.term ∨ s.currentTerm = req.term ∧
      ∀ v ∈ s.votedFor, req.candidateId = v.1 ∧ v.2 < req.lastLogTerm

instance (s : Server σ) (req : VoteRequest) : Decidable (s.Grants req) :=
  inferInstanceAs (Decidable (_ ∨ _ ∧ _))

/-- The branches of the handlers. -/
inductive Effect (cfg : Config σ) (s : Server σ) : Input → Server σ → List Packet → Prop
  /-- A timer that fires before `start()`. -/
  | timeoutIdle : Effect cfg s .timeout s []
  | timeoutLeader : s.state = .leader →
      Effect cfg s .timeout { s with aborted := !cfg.ndebug } []
  | candidacy : s.state ≠ .leader →
      Effect cfg s .timeout (sendVoteRequest cfg { s with state := .candidate }).1
        (sendVoteRequest cfg { s with state := .candidate }).2
  /-- A vote request from an older term. -/
  | voteStale {src : ℕ} {req : VoteRequest} : req.term < s.currentTerm →
      Effect cfg s (.receive src (.voteRequest req)) s
        [⟨s.id, src, .voteResponse ⟨s.currentTerm, false⟩⟩]
  /-- A vote request after the vote of this term has gone elsewhere. -/
  | voteRefused {src : ℕ} {req : VoteRequest} : s.currentTerm = req.term → ¬ s.Grants req →
      Effect cfg s (.receive src (.voteRequest req)) s
        [⟨s.id, src, .voteResponse ⟨s.currentTerm, false⟩⟩]
  | voteGranted {src : ℕ} {req : VoteRequest} : s.currentTerm ≤ req.term → s.Grants req →
      Effect cfg s (.receive src (.voteRequest req))
        ((s.adoptTerm req.candidateId req.term).grantVote req).1
        [⟨s.id, src, .voteResponse ⟨req.term, true⟩⟩]
  /-- A vote response that is a refusal, or finds a leader. -/
  | voteIgnored {src : ℕ} {resp : VoteResponse} :
      Effect cfg s (.receive src (.voteResponse resp)) s []
  /-- A granted vote that makes no leader. -/
  | voteCounted {src : ℕ} {resp : VoteResponse} : s.state ≠ .leader → resp.voteGranted = true →
      Effect cfg s (.receive src (.voteResponse resp))
        { s with votesGranted := s.votesGranted + 1 } []
  /-- A granted vote that completes a quorum. -/
  | elected {src : ℕ} {resp : VoteResponse} : s.state = .candidate → resp.voteGranted = true →
      cfg.quorum ≤ s.votesGranted + 1 →
      Effect cfg s (.receive src (.voteResponse resp))
        (setupLeader cfg { s with votesGranted := s.votesGranted + 1 }) []
  /-- A replication request that fails one of the two checks. -/
  | appendRejected {src : ℕ} {req : AppendEntriesRequest} : ¬ s.Accepts req →
      Effect cfg s (.receive src (.appendEntriesRequest req)) s
        [⟨s.id, src, .appendEntriesResponse ⟨s.currentTerm, s.latestIndex, false⟩⟩]
  /-- An accepted request after which the assertion on the log's length fails. -/
  | appendAborted {src : ℕ} {req : AppendEntriesRequest} : s.Accepts req →
      cfg.ndebug = false → req.lastIndex ≠ (s.acceptEntries req).latestIndex →
      Effect cfg s (.receive src (.appendEntriesRequest req))
        { s.acceptEntries req with aborted := true } []
  /-- An accepted request that advances the commit index: the handler blocks. -/
  | appendCommitted {src : ℕ} {req : AppendEntriesRequest} : s.Accepts req →
      s.commitIndex < req.leaderCommit →
      Effect cfg s (.receive src (.appendEntriesRequest req))
        ((s.acceptEntries req).advanceCommit src (min req.leaderCommit req.lastIndex)) []
  /-- An accepted request that is answered at once. -/
  | appendStored {src : ℕ} {req : AppendEntriesRequest} : s.Accepts req →
      Effect cfg s (.receive src (.appendEntriesRequest req)) (s.acceptEntries req)
        [⟨s.id, src, .appendEntriesResponse
          ⟨req.term, (s.acceptEntries req).latestIndex, true⟩⟩]
  /-- A replication response to a server that does not lead. -/
  | responseIgnored {src : ℕ} {resp : AppendEntriesResponse} : s.state ≠ .leader →
      Effect cfg s (.receive src (.appendEntriesResponse resp)) s []
  /-- A replication response that leaves the commit index. -/
  | responseRecorded {src : ℕ} {resp : AppendEntriesResponse} : s.state = .leader →
      s.commitIndex = computeCommitIndex (recordResponse s.followers src resp) →
      Effect cfg s (.receive src (.appendEntriesResponse resp))
        { s with followers := recordResponse s.followers src resp } []
  /-- A replication response that changes the commit index. -/
  | responseCommitted {src : ℕ} {resp : AppendEntriesResponse} : s.state = .leader →
      Effect cfg s (.receive src (.appendEntriesResponse resp))
        { s with
          followers := recordResponse s.followers src resp
          commitIndex := computeCommitIndex (recordResponse s.followers src resp)
          history := .committed .leader s.currentTerm
            (computeCommitIndex (recordResponse s.followers src resp)) s.log :: s.history } []
  /-- A command to a server that does not lead. -/
  | commandRejected {cmd : Command} : s.state ≠ .leader →
      Effect cfg s (.command cmd)
        { s with
          tickets := s.tickets + 1
          history := .rejected s.tickets :: .submitted s.tickets cmd :: s.history } []
  /-- A command whose append is handed to the store's executor. -/
  | commandDelayed {cmd : Command} : s.state = .leader →
      Effect cfg s (.command cmd)
        { s with
          tickets := s.tickets + 1
          history := .submitted s.tickets cmd :: s.history
          storeTasks := s.storeTasks ++ [(.ofCommand s.currentTerm cmd, s.tickets)] } []
  /-- A command whose entry is appended at once. -/
  | commandStored {cmd : Command} : s.state = .leader →
      Effect cfg s (.command cmd) (storeTask cfg
          { s with
            tickets := s.tickets + 1
            history := .submitted s.tickets cmd :: s.history }
          (.ofCommand s.currentTerm cmd) s.tickets) []
  /-- The store's executor runs a task. -/
  | stored {k ticket : ℕ} {entry : LogEntry} : s.storeTasks[k]? = some (entry, ticket) →
      Effect cfg s (.store k)
        (storeTask cfg { s with storeTasks := s.storeTasks.eraseIdx k } entry ticket) []
  | loopBegun {peer : ℕ} : peer ∈ s.loopTasks →
      Effect cfg s (.beginLoop peer) (s.replicationLoop peer) []
  /-- A round that could not read the log. -/
  | replicateFailed {peer : ℕ} : peer ∈ s.loops →
      Effect cfg s (.replicate peer)
        { s with followers := s.followers.insert peer (s.followerState peer) } []
  | heartbeat {peer : ℕ} : peer ∈ s.loops → s.latestIndex < (s.followerState peer).nextIndex →
      Effect cfg s (.replicate peer) (s.sendEntries peer (s.followerState peer) []).1
        (s.sendEntries peer (s.followerState peer) []).2
  | replicated {peer : ℕ} {entries : List LogEntry} : peer ∈ s.loops →
      (s.followerState peer).nextIndex ≤ s.latestIndex →
      s.tryLoadLogEntries cfg (s.followerState peer).nextIndex = some entries →
      Effect cfg s (.replicate peer) (s.sendEntries peer (s.followerState peer) entries).1
        (s.sendEntries peer (s.followerState peer) entries).2
  | applied : Effect cfg s .apply (s.applyLogs cfg) []
  | resumed {peer index : ℕ} : s.waiting = some ⟨peer, index, true⟩ →
      Effect cfg s .resume { s with waiting := none }
        [⟨s.id, peer, .appendEntriesResponse ⟨s.currentTerm, s.latestIndex, true⟩⟩]

/-! ### Nothing else happens -/

section Inversion

variable {cfg : Config σ} {s s' : Server σ} {out : List Packet}

variable {leaderId term : ℕ}

theorem adoptTerm_of_le (h : term ≤ s.currentTerm) : s.adoptTerm leaderId term = s :=
  if_neg (by omega)

theorem adoptTerm_of_lt (h : s.currentTerm < term) :
    s.adoptTerm leaderId term = s.convertToFollower leaderId term :=
  if_pos h

theorem adoptTerm_eq (s : Server σ) (leaderId term : ℕ) : s.adoptTerm leaderId term =
      { s with
        votedFor := if s.currentTerm < term then none else s.votedFor
        currentTerm := max s.currentTerm term
        state := if s.currentTerm < term then .follower else s.state
        currentLeaderId := if s.currentTerm < term then leaderId else s.currentLeaderId } := by
  by_cases h : s.currentTerm < term
  · rw [adoptTerm_of_lt h]
    simp only [if_pos h, max_eq_right (le_of_lt h)]
    rfl
  · rw [adoptTerm_of_le (not_lt.1 h)]
    simp only [if_neg h, max_eq_left (not_lt.1 h)]

theorem adoptTerm_currentTerm (h : s.currentTerm ≤ term) :
    (s.adoptTerm leaderId term).currentTerm = term := by
  rw [adoptTerm_eq]
  exact max_eq_right h

variable {req : VoteRequest}

theorem grantVote_adoptTerm_eq (h : s.currentTerm ≤ req.term) :
    ((s.adoptTerm req.candidateId req.term).grantVote req).1 =
      { s with
        votedFor := some (req.candidateId, req.lastLogTerm)
        currentTerm := req.term
        state := if s.currentTerm < req.term then .follower else s.state
        currentLeaderId := if s.currentTerm < req.term then req.candidateId else s.currentLeaderId
        history := .voted req.term req.candidateId s.log :: s.history } := by
  rw [adoptTerm_eq]
  simp only [grantVote, setVotedFor, max_eq_right h]

theorem acceptEntries_eq (s : Server σ) (req : AppendEntriesRequest) : s.acceptEntries req =
      { s with
        votedFor := if s.currentTerm < req.term then none else s.votedFor
        currentTerm := max s.currentTerm req.term
        log := (s.toMemoryStore.storeEntries req).log
        state := if s.currentTerm < req.term then .follower else s.state
        currentLeaderId :=
          if s.currentTerm < req.term then req.leaderId else s.currentLeaderId } := by
  rw [acceptEntries, adoptTerm_eq]
  have hstore : ∀ st : MemoryStore, st.storeEntries req =
      ⟨st.votedFor, st.currentTerm, (st.storeEntries req).log⟩ := by
    intro st
    conv_rhs => rw [← st.storeEntries_votedFor req, ← st.storeEntries_currentTerm req]
  rw [hstore]
  simp only [storeEntries_with_log]

theorem castVote_of_grants (h : ∀ v ∈ s.votedFor, req.candidateId = v.1 ∧ v.2 < req.lastLogTerm) :
    s.castVote req = s.grantVote req := by
  unfold castVote
  rcases hv : s.votedFor with - | ⟨id, term⟩
  · rfl
  · exact if_pos (h (id, term) (by simp [hv]))

theorem castVote_of_not_grants
    (h : ¬ ∀ v ∈ s.votedFor, req.candidateId = v.1 ∧ v.2 < req.lastLogTerm) :
    s.castVote req = (s, ⟨s.currentTerm, false⟩) := by
  unfold castVote
  rcases hv : s.votedFor with - | ⟨id, term⟩
  · simp [hv] at h
  · refine if_neg fun hc ↦ h ?_
    rintro v hv'
    rw [hv, mem_some_iff] at hv'
    exact hv' ▸ hc

theorem handleVoteRequest_of_grants (h : s.Grants req) : s.handleVoteRequest req =
      (((s.adoptTerm req.candidateId req.term).grantVote req).1, ⟨req.term, true⟩) := by
  have hle : s.currentTerm ≤ req.term := by
    rcases h with h | ⟨h, -⟩ <;> omega
  have hgrant : (s.adoptTerm req.candidateId req.term).castVote req =
      (s.adoptTerm req.candidateId req.term).grantVote req := by
    refine castVote_of_grants ?_
    rcases h with h | ⟨heq, h⟩
    · rw [adoptTerm_of_lt h]
      simp [convertToFollower]
    · rw [adoptTerm_of_le (by omega)]
      exact h
  rw [handleVoteRequest, if_neg (by omega), hgrant]
  refine Prod.ext rfl ?_
  show VoteResponse.mk _ true = _
  rw [adoptTerm_currentTerm hle]

theorem handleVoteRequest_of_not_grants (h : ¬ s.Grants req) :
    s.handleVoteRequest req = (s, ⟨s.currentTerm, false⟩) := by
  unfold handleVoteRequest
  split
  · rfl
  · next hlt =>
    have heq : s.currentTerm = req.term := by
      by_contra hne
      exact h (.inl (by omega))
    rw [adoptTerm_of_le (by omega)]
    exact castVote_of_not_grants fun hv ↦ h (.inr ⟨heq, hv⟩)

theorem effect_onTimeout (cfg : Config σ) (s : Server σ) :
    Effect cfg s .timeout (s.onTimeout cfg).1 (s.onTimeout cfg).2 := by
  unfold onTimeout
  split
  · split
    · next hst => exact .candidacy (by simp [hst])
    · next hst =>
      have hs : { s with state := .candidate } = s := by rw [← hst]
      have hc : Effect cfg s .timeout _ _ := .candidacy (by simp [hst])
      rwa [hs] at hc
    · next hst => exact .timeoutLeader hst
  · exact .timeoutIdle

theorem effect_voteRequest (src : ℕ) (req : VoteRequest) :
    Effect cfg s (.receive src (.voteRequest req)) (s.handleVoteRequest req).1
      [⟨s.id, src, .voteResponse (s.handleVoteRequest req).2⟩] := by
  by_cases hg : s.Grants req
  · rw [handleVoteRequest_of_grants hg]
    refine .voteGranted ?_ hg
    rcases hg with h | ⟨h, -⟩ <;> omega
  · rw [handleVoteRequest_of_not_grants hg]
    by_cases hlt : req.term < s.currentTerm
    · exact .voteStale hlt
    · refine .voteRefused ?_ hg
      by_contra hne
      exact hg (.inl (by omega))

theorem effect_voteResponse (src : ℕ) (resp : VoteResponse) :
    Effect cfg s (.receive src (.voteResponse resp)) (s.handleVoteResponse cfg resp) [] := by
  unfold handleVoteResponse
  split
  · exact .voteIgnored
  · next hl =>
    split
    · next hg =>
      split
      · next hq => exact .elected hq.2 hg hq.1
      · exact .voteCounted hl hg
    · exact .voteIgnored

theorem acceptEntries_currentTerm {req : AppendEntriesRequest} (h : s.currentTerm ≤ req.term) :
    (s.acceptEntries req).currentTerm = req.term := by
  rw [acceptEntries_eq]
  exact max_eq_right h

theorem handleAppendEntriesRequest_of_not_accepts (cfg : Config σ) (src : ℕ)
    {req : AppendEntriesRequest} (h : ¬ s.Accepts req) :
    s.handleAppendEntriesRequest cfg src req = (s, some ⟨s.currentTerm, s.latestIndex, false⟩) := by
  rw [handleAppendEntriesRequest]
  split
  · rfl
  · next hlt =>
    rw [if_pos fun heq ↦ h ⟨by omega, heq⟩]

theorem handleAppendEntriesRequest_of_accepts (cfg : Config σ) (src : ℕ)
    {req : AppendEntriesRequest} (h : s.Accepts req) :
    s.handleAppendEntriesRequest cfg src req =
      if cfg.ndebug = false ∧ req.lastIndex ≠ (s.acceptEntries req).latestIndex then
        ({ s.acceptEntries req with aborted := true }, none)
      else if s.commitIndex < req.leaderCommit then
        ((s.acceptEntries req).advanceCommit src (min req.leaderCommit req.lastIndex), none)
      else (s.acceptEntries req, some ⟨req.term, (s.acceptEntries req).latestIndex, true⟩) := by
  have hcommit : (s.acceptEntries req).commitIndex = s.commitIndex := by
    rw [acceptEntries_eq]
  rw [handleAppendEntriesRequest, if_neg (by have := h.1; omega), if_neg (not_not.2 h.2)]
  dsimp only
  rw [hcommit, acceptEntries_currentTerm h.1]

theorem effect_appendEntriesRequest (cfg : Config σ) (s : Server σ) (src : ℕ)
    (req : AppendEntriesRequest) :
    Effect cfg s (.receive src (.appendEntriesRequest req))
      (s.handleAppendEntriesRequest cfg src req).1
      ((s.handleAppendEntriesRequest cfg src req).2.toList.map
        fun resp ↦ ⟨s.id, src, .appendEntriesResponse resp⟩) := by
  by_cases hacc : s.Accepts req
  · rw [handleAppendEntriesRequest_of_accepts cfg src hacc]
    split
    · next h => exact .appendAborted hacc h.1 h.2
    · split
      · next hc => exact .appendCommitted hacc hc
      · exact .appendStored hacc
  · rw [handleAppendEntriesRequest_of_not_accepts cfg src hacc]
    exact .appendRejected hacc

theorem effect_appendEntriesResponse (src : ℕ) (resp : AppendEntriesResponse) :
    Effect cfg s (.receive src (.appendEntriesResponse resp))
      (s.handleAppendEntriesResponse src resp) [] := by
  unfold handleAppendEntriesResponse
  split
  · next h => exact .responseIgnored h
  · next h =>
    have hl : s.state = .leader := by simpa using h
    dsimp only
    split
    · have hc : Effect cfg s (.receive src (.appendEntriesResponse resp)) _ _ :=
        .responseCommitted hl
      rwa [← hl] at hc
    · next hc => exact .responseRecorded hl (by simpa using hc)

theorem effect_command (cmd : Command) :
    Effect cfg s (.command cmd) (s.sendCommandAsync cfg cmd) [] := by
  unfold sendCommandAsync
  dsimp only
  split
  · next h =>
    split
    · exact .commandDelayed h
    · exact .commandStored h
  · next h => exact .commandRejected h

theorem effect_replicate (cfg : Config σ) {peer : ℕ} (h : peer ∈ s.loops) :
    Effect cfg s (.replicate peer) (s.replicateLogsTo cfg peer).1
      (s.replicateLogsTo cfg peer).2 := by
  unfold replicateLogsTo
  dsimp only
  split
  · next hle =>
    rcases hl : s.tryLoadLogEntries cfg (s.followerState peer).nextIndex with - | entries
    · exact .replicateFailed h
    · exact .replicated h hle hl
  · next hlt => exact .heartbeat h (by omega)

theorem handle_receive_iff {src : ℕ} {msg : Message} {r : Server σ × List Packet} :
    s.handle cfg (.receive src msg) = some r ↔
      s.aborted = false ∧ s.waiting = none ∧ s.receive cfg src msg = r := by
  unfold handle
  cases s.aborted <;> simp [ite_none_right_eq_some]

/-- **Nothing else happens**: whatever an input does is one of the listed effects. -/
theorem handle_effect {inp : Input} (h : s.handle cfg inp = some (s', out)) :
    Effect cfg s inp s' out := by
  unfold handle at h
  split at h
  · cases h
  · cases inp with
    | timeout =>
      simp only [ite_none_right_eq_some, some.injEq] at h
      have ht := effect_onTimeout cfg s
      rwa [h.2] at ht
    | receive src msg =>
      simp only [ite_none_right_eq_some, some.injEq] at h
      obtain ⟨-, h⟩ := h
      cases msg with
      | voteRequest req =>
        cases h
        exact effect_voteRequest src req
      | voteResponse resp =>
        cases h
        exact effect_voteResponse src resp
      | appendEntriesRequest req =>
        cases h
        exact effect_appendEntriesRequest cfg s src req
      | appendEntriesResponse resp =>
        cases h
        exact effect_appendEntriesResponse src resp
    | command cmd =>
      cases h
      exact effect_command cmd
    | store k =>
      simp only [runStoreTask, Option.map_map, map_eq_some_iff, Function.comp_def] at h
      obtain ⟨⟨entry, ticket⟩, hk, h⟩ := h
      cases h
      exact .stored hk
    | beginLoop peer =>
      simp only [ite_none_right_eq_some, some.injEq] at h
      obtain ⟨hp, h⟩ := h
      cases h
      exact .loopBegun hp
    | replicate peer =>
      simp only [ite_none_right_eq_some, some.injEq] at h
      obtain ⟨hp, h⟩ := h
      have hr := effect_replicate cfg hp.2
      rwa [h] at hr
    | apply =>
      cases h
      exact .applied
    | resume =>
      rcases hw : s.waiting with - | ⟨peer, index, - | -⟩ <;> simp only [hw] at h <;> cases h
      exact .resumed hw

end Inversion

/-! ### Applying the log -/

section Apply

variable {cfg : Config σ} {s s' : Server σ}

/-- What fulfilling the promise at an index does to the promises, to the handler that waits, and to
what is recorded. -/
structure Fulfils (s : Server σ) (index : ℕ) (reply : Reply) (p : AList fun _ : ℕ ↦ Promise)
    (w : Option Waiting) (new : List Event) : Prop where
  promise : ∀ {k promise}, p.lookup k = some promise → s.appliedPromises.lookup k = some promise
  /-- The handler may be released, but will answer whom it was to answer. -/
  peer : w.map Waiting.peer = s.waiting.map Waiting.peer
  /-- The client whose promise is at the index is answered. -/
  replied : ∀ ev ∈ new, ∃ ticket, ev = .replied ticket reply ∧
    s.appliedPromises.lookup index = some (.client ticket)

theorem fulfil_eq (s : Server σ) (index : ℕ) (reply : Reply) : ∃ p w new, fulfil s index reply =
        { s with appliedPromises := p, waiting := w, history := new ++ s.history } ∧
      s.Fulfils index reply p w new := by
  unfold fulfil
  split
  · exact ⟨_, _, [], rfl, fun h ↦ h, rfl, by simp⟩
  · next promise hlookup =>
    refine ⟨_, _, Promise.events reply promise, rfl, fun {k _} h ↦ ?_, ?_, fun ev hev ↦ ?_⟩
    · rcases eq_or_ne k index with rfl | hne
      · rw [AList.lookup_erase] at h
        cases h
      · rwa [AList.lookup_erase_ne hne] at h
    · rcases s.waiting with - | w
      · rfl
      · simp only [map_some]
        split_ifs <;> rfl
    · cases promise with
      | client ticket => exact ⟨ticket, mem_singleton.1 hev, hlookup⟩
      | handler => cases hev

/-- One iteration reads the entry after the last applied one, hands its command to the state
machine, and fulfils the promise at its index. -/
theorem applyNext_eq_some (h : s.applyNext cfg = some s') :
    ∃ entry p w new, s.lastApplied < s.commitIndex ∧
      s.getLogEntry (s.lastApplied + 1) = some entry ∧
      s.Fulfils (s.lastApplied + 1) (cfg.applyCommand s.machine entry.command).1 p w new ∧
      s' = { s with
        machine := (cfg.applyCommand s.machine entry.command).2
        appliedPromises := p
        waiting := w
        lastApplied := s.lastApplied + 1
        history := new ++ .applied (s.lastApplied + 1) entry
          (cfg.applyCommand s.machine entry.command).1 :: s.history } := by
  obtain ⟨hlt, h⟩ := ite_none_right_eq_some.1 h
  split at h
  · cases h
  · next entry hentry =>
    split at h
    · cases h
      obtain ⟨p, w, new, heq, hf⟩ := fulfil_eq
        { s with
          machine := (cfg.applyCommand s.machine entry.command).2
          history := .applied (s.lastApplied + 1) entry
            (cfg.applyCommand s.machine entry.command).1 :: s.history }
        (s.lastApplied + 1) (cfg.applyCommand s.machine entry.command).1
      exact ⟨entry, p, w, new, hlt, hentry, ⟨hf.promise, hf.peer, hf.replied⟩, by rw [heq]⟩
    · cases h

/-- **What every iteration keeps, `applyLogs` keeps.** -/
@[elab_as_elim]
theorem applyLogs_induction {P : Server σ → Prop} (h : P s)
    (hstep : ∀ {t t' : Server σ}, P t → t.applyNext cfg = some t' → P t') :
    P (s.applyLogs cfg) := by
  have key : ∀ (n : ℕ) (t : Server σ), P t → P (applyUpTo cfg n t) := by
    intro n
    induction n with
    | zero => exact fun _ ht ↦ ht
    | succ n ih =>
      intro t ht
      rw [applyUpTo]
      split
      · exact ht
      · next t' hn => exact ih t' (hstep ht hn)
  exact key _ s h

theorem applyLogs_eq (cfg : Config σ) (s : Server σ) : ∃ m p w l h, s.applyLogs cfg =
        { s with
          machine := m
          appliedPromises := p
          waiting := w
          lastApplied := l
          history := h ++ s.history } ∧
      ∀ ev ∈ h, ev.IsApply := by
  refine applyLogs_induction ⟨_, _, _, _, [], rfl, by simp⟩ ?_
  rintro t t' ⟨m, p, w, l, h, rfl, hh⟩ ht
  obtain ⟨entry, p', w', new, -, -, hf, rfl⟩ := applyNext_eq_some ht
  refine ⟨(cfg.applyCommand m entry.command).2, p', w', l + 1,
    new ++ .applied (l + 1) entry (cfg.applyCommand m entry.command).1 :: h, ?_, ?_⟩
  · simp only [append_assoc, cons_append]
  · intro ev hev
    rcases mem_append.1 hev with hev | hev
    · obtain ⟨ticket, rfl, -⟩ := hf.replied ev hev
      trivial
    · rcases mem_cons.1 hev with rfl | hev
      · trivial
      · exact hh ev hev

end Apply

end Server

end Xzero.Raft
