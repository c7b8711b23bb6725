import Xzero.Raft.ServerSpec

/-!
# Term adoption

A server that hears of a newer term is to move to it as a follower. `handleRequest(VoteRequest)`
does. The other three handlers have gaps: the response handlers never look at the term they are
given, and `handleRequest(AppendEntriesRequest)` returns before the term is adopted when the
previous entry does not match, and leaves a candidate or leader of the same term in its role when
it does. `adoptsTerm_iff` says that these are all the gaps there are: **the rule holds of a message
exactly when none of them is reached**.
-/

namespace Xzero.Raft

variable {σ : Type}

/-- The candidate a message asks to vote for. -/
def Message.candidate : Message → Option ℕ
  | .voteRequest req => some req.candidateId
  | _ => none

/-- A packet that answers a replication request with success. -/
def Packet.IsSuccess (p : Packet) : Prop :=
  match p.msg with
  | .appendEntriesResponse resp => resp.success = true
  | _ => False

namespace Server

/-! ### Term adoption -/

/-- The rule for a message that has been handled: its term has been reached; if it was a newer
one, the server follows, and has no vote but for a candidate of that term; and a server that
answers a replication request with success, at once or when the awaited entry has been applied,
follows. -/
structure AdoptsTerm (s : Server σ) (msg : Message) (s' : Server σ) (out : List Packet) :
    Prop where
  reached : msg.term ≤ s'.currentTerm
  follows : s.currentTerm < msg.term → s'.state = .follower
  /-- A newer term leaves no vote of an older one. -/
  vote : s.currentTerm < msg.term → ∀ v ∈ s'.votedFor, msg.candidate = some v.1
  /-- Success is answered by followers. -/
  success : (∃ p ∈ out, p.IsSuccess) ∨ s'.waiting ≠ none → s'.state = .follower

/-- Every way the handler of a message can return meets the rule. -/
def TermAdoption (cfg : Config σ) (s : Server σ) (src : ℕ) (msg : Message) : Prop :=
  ∀ s' out, s.handle cfg (.receive src msg) = some (s', out) → s'.aborted = false →
    AdoptsTerm s msg s' out

/-- No gap of the handlers is reached: a response is not from a newer term; a replication request
that does not match the log is not either; and one that matches finds a follower, or a server of
an older term, unless the assertion on the log's length ends the process. -/
def MeetsTerm (cfg : Config σ) (s : Server σ) : Message → Prop
  | .voteRequest _ => True
  | .voteResponse resp => resp.term ≤ s.currentTerm
  | .appendEntriesResponse resp => resp.term ≤ s.currentTerm
  | .appendEntriesRequest req =>
    (¬ s.Accepts req → req.term ≤ s.currentTerm) ∧
      (s.Accepts req → s.currentTerm = req.term → s.state ≠ .follower →
        cfg.ndebug = false ∧ ¬ MemoryStore.Continues req s.toMemoryStore)

section

variable {cfg : Config σ} {s : Server σ}

variable {s' : Server σ} {msg : Message} {out : List Packet}

/-- A handler that leaves the term, the role and the lock meets the rule for a message that is not
from a newer term. -/
theorem AdoptsTerm.of_unchanged
    (hle : msg.term ≤ s.currentTerm) (hterm : s'.currentTerm = s.currentTerm)
    (hw : s'.waiting = none) (hout : ∀ p ∈ out, ¬p.IsSuccess) : AdoptsTerm s msg s' out where
  reached := by rwa [hterm]
  follows h := absurd h (not_lt.2 hle)
  vote h := absurd h (not_lt.2 hle)
  success h := by
    rcases h with ⟨p, hp, hs⟩ | h
    · exact absurd hs (hout p hp)
    · exact absurd hw h

variable {src : ℕ}

theorem adoptsTerm_voteRequest {req : VoteRequest}
    (hw : s.waiting = none) (h : Effect cfg s (.receive src (.voteRequest req)) s' out) :
    AdoptsTerm s (.voteRequest req) s' out := by
  cases h with
  | voteStale hlt =>
    have hle : req.term ≤ s.currentTerm := le_of_lt hlt
    exact .of_unchanged hle rfl hw (by simp [Packet.IsSuccess])
  | voteRefused heq _ =>
    exact .of_unchanged (le_of_eq heq.symm) rfl hw (by simp [Packet.IsSuccess])
  | voteGranted hle hg =>
    rw [adoptTerm_eq]
    refine ⟨le_max_right _ _, fun h ↦ if_pos h, ?_, ?_⟩
    · intro _ v hv
      obtain rfl : (req.candidateId, req.lastLogTerm) = v := Option.some.inj hv
      rfl
    · simp [hw, Packet.IsSuccess, grantVote]

theorem termAdoption_iff_of_unchanged
    (ha : s.aborted = false) (hw : s.waiting = none) (hr : s.receive cfg src msg = (s', out))
    (hterm : s'.currentTerm = s.currentTerm) (habort : s'.aborted = s.aborted)
    (hwait : s'.waiting = s.waiting) (hout : ∀ p ∈ out, ¬p.IsSuccess) :
    TermAdoption cfg s src msg ↔ msg.term ≤ s.currentTerm := by
  constructor
  · intro h
    exact hterm ▸ (h s' out (handle_receive_iff.2 ⟨ha, hw, hr⟩) (habort.trans ha)).reached
  · intro hle s'' out' hh _
    obtain ⟨-, -, hr'⟩ := handle_receive_iff.1 hh
    cases hr.symm.trans hr'
    exact .of_unchanged hle hterm (hwait.trans hw) hout

theorem termAdoption_voteResponse_iff {resp : VoteResponse} (ha : s.aborted = false)
    (hw : s.waiting = none) :
    TermAdoption cfg s src (.voteResponse resp) ↔ resp.term ≤ s.currentTerm := by
  refine termAdoption_iff_of_unchanged ha hw rfl ?_ ?_ ?_ nofun <;>
  · unfold handleVoteResponse
    split_ifs <;> rfl

theorem termAdoption_appendEntriesResponse_iff {resp : AppendEntriesResponse}
    (ha : s.aborted = false) (hw : s.waiting = none) :
    TermAdoption cfg s src (.appendEntriesResponse resp) ↔ resp.term ≤ s.currentTerm := by
  refine termAdoption_iff_of_unchanged ha hw rfl ?_ ?_ ?_ nofun <;>
  · unfold handleAppendEntriesResponse
    dsimp only
    split_ifs <;> rfl

variable {req : AppendEntriesRequest}

theorem termAdoption_of_not_accepts_iff
    (ha : s.aborted = false) (hw : s.waiting = none) (hacc : ¬ s.Accepts req) :
    TermAdoption cfg s src (.appendEntriesRequest req) ↔ req.term ≤ s.currentTerm := by
  have hr : s.receive cfg src (.appendEntriesRequest req) =
      (s, [⟨s.id, src, .appendEntriesResponse ⟨s.currentTerm, s.latestIndex, false⟩⟩]) := by
    simp only [receive, handleAppendEntriesRequest_of_not_accepts cfg src hacc]
    rfl
  exact termAdoption_iff_of_unchanged ha hw hr rfl rfl rfl (by simp [Packet.IsSuccess])

theorem acceptEntries_state_eq_follower_iff (hacc : s.Accepts req) :
    (s.acceptEntries req).state = .follower ↔ (s.currentTerm = req.term → s.state = .follower) := by
  have hle := hacc.1
  rw [acceptEntries_eq]
  split_ifs with hlt
  · exact iff_of_true rfl fun h ↦ absurd h (ne_of_lt hlt)
  · have heq : s.currentTerm = req.term := by omega
    simp only [heq, true_implies]

/-- A request that passes the checks, and the assertion where it is compiled in, is answered with
success, at once or later, in the term it carries. -/
theorem receive_of_accepts (src : ℕ) (ha : s.aborted = false) (hacc : s.Accepts req)
    (hassert : ¬ (cfg.ndebug = false ∧ req.lastIndex ≠ (s.acceptEntries req).latestIndex)) :
    ∃ s' out, s.receive cfg src (.appendEntriesRequest req) = (s', out) ∧ s'.aborted = false ∧
      s'.currentTerm = req.term ∧ s'.state = (s.acceptEntries req).state ∧
      (s.currentTerm < req.term → s'.votedFor = none) ∧
      ((∃ p ∈ out, p.IsSuccess) ∨ s'.waiting ≠ none) := by
  have hres := handleAppendEntriesRequest_of_accepts cfg src hacc
  have halive : (s.acceptEntries req).aborted = false := by rw [acceptEntries_eq]; exact ha
  have hvote : s.currentTerm < req.term → (s.acceptEntries req).votedFor = none := by
    intro h
    rw [acceptEntries_eq]
    exact if_pos h
  have hterm := acceptEntries_currentTerm hacc.1
  split_ifs at hres with hcommit
  · refine ⟨(s.acceptEntries req).advanceCommit src (min req.leaderCommit req.lastIndex), [], ?_,
      halive, hterm, rfl, hvote, .inr (by simp [advanceCommit])⟩
    simp only [receive, hres]
    rfl
  · refine ⟨s.acceptEntries req, [⟨s.id, src, .appendEntriesResponse
        ⟨req.term, (s.acceptEntries req).latestIndex, true⟩⟩], ?_,
      halive, hterm, rfl, hvote, .inl (by simp [Packet.IsSuccess])⟩
    simp only [receive, hres]
    rfl

theorem termAdoption_of_accepts_iff
    (ha : s.aborted = false) (hw : s.waiting = none) (hne : s.log ≠ []) (hacc : s.Accepts req) :
    TermAdoption cfg s src (.appendEntriesRequest req) ↔
      (s.currentTerm = req.term → s.state ≠ .follower →
        cfg.ndebug = false ∧ ¬ MemoryStore.Continues req s.toMemoryStore) := by
  have hlatest : (s.acceptEntries req).latestIndex =
      (s.toMemoryStore.storeEntries req).latestIndex := by
    rw [acceptEntries_eq]
    rfl
  have hcontinues : req.lastIndex = (s.acceptEntries req).latestIndex ↔
      MemoryStore.Continues req s.toMemoryStore :=
    hlatest ▸ MemoryStore.lastIndex_eq_latestIndex_iff hne
  rw [← hcontinues]
  by_cases hassert : cfg.ndebug = false ∧ req.lastIndex ≠ (s.acceptEntries req).latestIndex
  · -- The process ends, so there is no state to speak about.
    refine iff_of_true ?_ fun _ _ ↦ hassert
    intro s' out hh hna
    obtain ⟨-, -, hr⟩ := handle_receive_iff.1 hh
    simp only [receive, handleAppendEntriesRequest_of_accepts cfg src hacc, if_pos hassert] at hr
    cases hr
    cases hna
  · obtain ⟨s', out, hr, halive, hterm, hstate, hvote, hsuccess⟩ :=
      receive_of_accepts src ha hacc hassert
    have hiff : (s.currentTerm = req.term → s.state ≠ .follower →
        cfg.ndebug = false ∧ ¬ req.lastIndex = (s.acceptEntries req).latestIndex) ↔
        s'.state = .follower := by
      rw [hstate, acceptEntries_state_eq_follower_iff hacc]
      exact imp_congr_right fun _ ↦ ⟨fun h ↦ not_not.1 fun hf ↦ hassert (h hf),
        fun h hf ↦ absurd h hf⟩
    rw [hiff]
    constructor
    · intro h
      exact (h s' out (handle_receive_iff.2 ⟨ha, hw, hr⟩) halive).success hsuccess
    · intro hf s'' out' hh _
      obtain ⟨-, -, hr'⟩ := handle_receive_iff.1 hh
      cases hr.symm.trans hr'
      refine ⟨le_of_eq hterm.symm, fun _ ↦ hf, fun hlt ↦ ?_, fun _ ↦ hf⟩
      simp [hvote hlt]

end

end Server

end Xzero.Raft
