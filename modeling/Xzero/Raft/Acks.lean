import Xzero.Raft.CommitIndex
import Xzero.Raft.Replication

/-!
# Acknowledgements

What a follower says it holds. `handleRequest(AppendEntriesRequest)` acknowledges with its latest
index, whatever the request covered; that this is the request's last index is what its assertion
`lastIndex == latestIndex()` checks, before the handler may block, and what a build without
assertions does not. `Asserts` is the assertion as a condition on the step. Under it **an
acknowledgement never reaches past the log of the server it goes to** (`stored_length`); a handler
that blocks acknowledges later, and `QuietWait` is the condition that nothing is appended to the
log meanwhile.
-/

namespace Xzero.Raft

open List MemoryStore Waiting

variable {σ : Type}

namespace Server

/-- The assertion on the log's length holds of an accepted request. -/
def Asserts (s : Server σ) : Input → Prop
  | .receive _ (.appendEntriesRequest req) =>
    s.Accepts req → MemoryStore.Continues req s.toMemoryStore
  | _ => True

instance (s : Server σ) : (inp : Input) → Decidable (s.Asserts inp)
  | .receive _ (.appendEntriesRequest _) => inferInstanceAs (Decidable (_ → _))
  | .receive _ (.voteRequest _) | .receive _ (.voteResponse _)
  | .receive _ (.appendEntriesResponse _) | .timeout | .command _ | .store _ | .beginLoop _
  | .replicate _ | .apply | .resume => inferInstanceAs (Decidable True)

/-- Nothing is appended to the log of a server whose handler waits. -/
def QuietWait (s : Server σ) : Input → Prop
  | .command _ => s.state = .leader → s.waiting = none
  | .store _ => s.waiting = none
  | _ => True

instance (s : Server σ) : (inp : Input) → Decidable (s.QuietWait inp)
  | .command _ => inferInstanceAs (Decidable (_ → _))
  | .store _ => inferInstanceAs (Decidable (_ = _))
  | .receive .. | .timeout | .beginLoop _ | .replicate _ | .apply | .resume =>
    inferInstanceAs (Decidable True)

/-- Acknowledgements can be relied on. -/
def Truthful (s : Server σ) (inp : Input) : Prop := s.NoWrap inp ∧ s.Asserts inp ∧ s.QuietWait inp

instance (s : Server σ) (inp : Input) : Decidable (s.Truthful inp) :=
  inferInstanceAs (Decidable (_ ∧ _))

theorem Truthful.appendOnly {s : Server σ} {inp : Input} (h : s.Truthful inp) :
    s.AppendOnly inp := by
  refine ⟨h.1, ?_⟩
  have hassert := h.2.1
  unfold KeepsLog
  split
  · exact fun hacc ↦ (hassert hacc).2.2
  · trivial

section

variable {cfg : Config σ} {s s' : Server σ} {inp : Input} {out : List Packet}

/-- Replication requests are answered at once or when the handler returns, and with success only
those that have been accepted. -/
theorem Effect.ack_of_mem_out (h : Effect cfg s inp s' out) {p : Packet}
    {resp : AppendEntriesResponse} (hp : p ∈ out) (hmsg : p.msg = .appendEntriesResponse resp) :
    p.src = s.id ∧
      (resp.success = true → resp.term = s'.currentTerm ∧ resp.lastLogIndex = s'.latestIndex) ∧
      ((∃ req, inp = .receive p.dst (.appendEntriesRequest req) ∧
          (resp.success = true → s.Accepts req)) ∨
        inp = .resume ∧ s'.toMemoryStore = s.toMemoryStore ∧
          ∃ index, s.waiting = some ⟨p.dst, index, true⟩) := by
  cases h with
  | candidacy =>
    obtain ⟨peer, -, rfl⟩ := mem_map.1 hp
    cases hmsg
  | voteStale | voteRefused | voteGranted | heartbeat | replicated =>
    rw [mem_singleton.1 hp] at hmsg
    cases hmsg
  | @appendRejected src req =>
    obtain rfl := mem_singleton.1 hp
    cases hmsg
    exact ⟨rfl, by simp, .inl ⟨req, rfl, by simp⟩⟩
  | @appendStored src req hacc =>
    obtain rfl := mem_singleton.1 hp
    cases hmsg
    exact ⟨rfl, fun _ ↦ ⟨(acceptEntries_currentTerm hacc.1).symm, rfl⟩,
      .inl ⟨req, rfl, fun _ ↦ hacc⟩⟩
  | @resumed peer index hw =>
    obtain rfl := mem_singleton.1 hp
    cases hmsg
    exact ⟨rfl, fun _ ↦ ⟨rfl, rfl⟩, .inr ⟨rfl, rfl, index, hw⟩⟩
  | _ => cases hp

/-- `applyLogs` releases the handler that waits, but does not change whom it will answer. -/
theorem applyLogs_waiting (cfg : Config σ) (s : Server σ) :
    (s.applyLogs cfg).waiting.map peer = s.waiting.map peer := by
  refine applyLogs_induction rfl ?_
  intro t t' ht hnext
  obtain ⟨entry, p, w, new, -, -, hf, rfl⟩ := applyNext_eq_some hnext
  exact hf.peer.trans ht

/-- A handler that waits has waited before, or has accepted a request that commits. -/
theorem Effect.peer_of_waiting (h : Effect cfg s inp s' out) {peer : ℕ}
    (hw : s'.waiting.map Waiting.peer = some peer) :
    s.waiting.map Waiting.peer = some peer ∨
      ∃ req, inp = .receive peer (.appendEntriesRequest req) ∧ s.Accepts req := by
  cases h with
  | voteGranted hle => rw [grantVote_adoptTerm_eq hle] at hw; exact .inl hw
  | appendAborted | appendStored =>
    rw [acceptEntries_eq] at hw
    exact .inl hw
  | @appendCommitted src req hacc =>
    cases hw
    exact .inr ⟨req, rfl, hacc⟩
  | applied =>
    rw [applyLogs_waiting] at hw
    exact .inl hw
  | resumed => cases hw
  | _ => exact .inl hw

theorem waiting_eq_none (h : s.handle cfg inp = some (s', out))
    (hinp : inp = .timeout ∨ ∃ src msg, inp = .receive src msg) : s.waiting = none := by
  rcases hinp with rfl | ⟨src, msg, rfl⟩
  · unfold handle at h
    simp only [Option.ite_none_left_eq_some, Option.ite_none_right_eq_some] at h
    exact h.2.1
  · exact (handle_receive_iff.1 h).2.1

theorem waiting_ne_none {peer : ℕ} (hw : s.waiting.map Waiting.peer = some peer) :
    s.waiting ≠ none := by
  intro heq
  rw [heq] at hw
  cases hw

theorem log_eq_of_waiting (h : s.handle cfg inp = some (s', out)) (hok : s.QuietWait inp)
    {peer : ℕ} (hw : s.waiting.map Waiting.peer = some peer) : s'.log = s.log := by
  have hne := waiting_ne_none hw
  rcases (handle_effect h).log_cases with
    heq | ⟨src, req, rfl, -, -⟩ | ⟨ticket, entry, -, -, ⟨cmd, rfl, hl, -⟩ | ⟨k, rfl, -⟩⟩
  · exact heq
  · exact absurd (waiting_eq_none h (.inr ⟨_, _, rfl⟩)) hne
  · exact absurd (hok hl) hne
  · exact absurd hok hne

theorem currentTerm_eq_of_waiting (h : s.handle cfg inp = some (s', out)) {peer : ℕ}
    (hw : s.waiting.map Waiting.peer = some peer) : s'.currentTerm = s.currentTerm := by
  have hne := waiting_ne_none hw
  cases (handle_effect h).election with
  | kept hk => exact hk.currentTerm
  | candidacy => exact absurd (waiting_eq_none h (.inl rfl)) hne
  | granted | adopted => exact absurd (waiting_eq_none h (.inr ⟨_, _, rfl⟩)) hne
  | counted | elected => rfl

end

end Server

/-- **A request that continues the log comes from a log at least as long.** -/
theorem ReplicationInv.stored_length {cfg : Config σ} {c : Cluster σ} (h : ReplicationInv cfg c)
    {src dst : ℕ} {req : AppendEntriesRequest} (hread : req.ReadFrom (c.servers src).log)
    (hacc : (c.servers dst).Accepts req)
    (hcont : MemoryStore.Continues req (c.servers dst).toMemoryStore) :
    ((c.servers dst).toMemoryStore.storeEntries req).log.length = req.lastIndex + 1 ∧
      req.lastIndex < (c.servers src).log.length ∧
      req.entries <+: (c.servers src).log.drop (req.prevLogIndex + 1) := by
  have hne := (h.log dst).log_ne_nil
  have hne' : ((c.servers dst).toMemoryStore.storeEntries req).log ≠ [] :=
    storeEntries_log_ne_nil hne
  have hpos := length_pos_of_ne_nil hne'
  have hlast := (lastIndex_eq_latestIndex_iff hne).2 hcont
  rw [latestIndex_eq hne'] at hlast
  refine ⟨by omega, ?_⟩
  rcases hread with ⟨e, hget, -, hentries⟩ | ⟨hprev, hterm, -⟩
  · refine ⟨?_, hentries⟩
    have hlt := (List.getElem?_eq_some_iff.1 hget).1
    have hle := hentries.length_le
    rw [length_drop] at hle
    rw [AppendEntriesRequest.lastIndex]
    omega
  · -- A heartbeat from past the end of the sender's log meets no entry of term zero.
    have hzero := (h.log dst).eq_zero_of_getLogTerm ((le_latestIndex_iff hne).1 hcont.1)
      (hacc.2.trans hterm)
    omega

end Xzero.Raft
