import Mathlib.Algebra.Ring.Nat
import Xzero.Raft.Replication

/-!
# A round of replication

What a leader sends, and what it sends after a rejection.

* **A batch is as it should be** exactly if its first entry is not too large and the loop does not
  come to one entry too many (`batches_iff`).
* **A rejection lets the leader back up** exactly if the follower's log ends before the request that
  it rejects (`backsUp_iff`).
-/

namespace Xzero.Raft.Server

open List MemoryStore Option Config

variable {σ : Type} {cfg : Config σ} {s : Server σ}

/-! ### The leader's batches -/

/-- The command bytes of some entries. -/
def commandBytes (entries : List LogEntry) : ℕ := (entries.map fun e ↦ e.command.length).sum

/-- A batch should be the next entries of the log, not none and not too many, and not too large
unless it is a single one. -/
def Batches (cfg : Config σ) (s : Server σ) (first : ℕ) : Prop :=
  ∃ entries, s.tryLoadLogEntries cfg first = some entries ∧ entries <+: s.log.drop first ∧
    1 ≤ entries.length ∧ entries.length ≤ cfg.maxCommandsPerMessage ∧
    (commandBytes entries ≤ cfg.maxCommandsSizePerMessage ∨ entries.length = 1)

/-- The loop loads the most entries that fit. -/
theorem loadLogEntries_eq (cfg : Config σ) (hne : s.log ≠ []) :
    ∀ n index totalSize : ℕ, index + n ≤ s.log.length →
      ∃ m, loadLogEntries cfg s n index totalSize = some ((s.log.drop index).take m) ∧
        ∀ k, k ≤ m ↔ k ≤ n ∧ (k = 0 ∨
          totalSize + commandBytes ((s.log.drop index).take k) ≤ cfg.maxCommandsSizePerMessage)
  | 0, index, totalSize, _ => ⟨0, rfl, fun k ↦ by simp +contextual⟩
  | n + 1, index, totalSize, hn => by
    have hlt : index < s.log.length := by omega
    rw [loadLogEntries, getLogEntry_eq hne, getElem?_eq_getElem hlt, drop_eq_getElem_cons hlt]
    dsimp only
    have hcons : ∀ k, commandBytes ((s.log[index] :: s.log.drop (index + 1)).take (k + 1)) =
        s.log[index].command.length + commandBytes ((s.log.drop (index + 1)).take k) := fun k ↦ rfl
    split
    · refine ⟨0, rfl, fun k ↦ ?_⟩
      cases k with
      | zero => simp
      | succ k =>
        rw [hcons]
        omega
    · obtain ⟨m, hload, hm⟩ := loadLogEntries_eq cfg hne n (index + 1)
        (totalSize + s.log[index].command.length) (by omega)
      refine ⟨m + 1, by rw [hload]; rfl, fun k ↦ ?_⟩
      cases k with
      | zero => simp
      | succ k =>
        have hk := hm k
        rw [hcons]
        have hzero : k = 0 → commandBytes ((s.log.drop (index + 1)).take k) = 0 := by rintro rfl; rfl
        omega

/-- What should come of a rejection that the leader `s` gets from the follower `f`: the next request
starts earlier, and `nextIndex` stays within the leader's log. -/
def BacksUp (cfg : Config σ) (s f : Server σ) (peer : ℕ) (req : AppendEntriesRequest) : Prop :=
  ∀ resp ∈ (f.handleAppendEntriesRequest cfg s.id req).2,
    let s' := s.handleAppendEntriesResponse peer resp
    let r := s'.replicateLogsTo cfg peer
    (∃ req', r.2 = [⟨s.id, peer, .appendEntriesRequest req'⟩] ∧
        req'.prevLogIndex < req.prevLogIndex) ∧
      (s'.followerState peer).nextIndex ≤ s.latestIndex + 1 ∧
      (r.1.followerState peer).nextIndex ≤ s.latestIndex + 1

theorem handleAppendEntriesResponse_eq (hleader : s.state = .leader) (peer : ℕ)
    (resp : AppendEntriesResponse) :
    ∃ index history, s.handleAppendEntriesResponse peer resp =
      { s with
        followers := recordResponse s.followers peer resp
        commitIndex := index
        history := history } := by
  rw [handleAppendEntriesResponse, if_neg (not_not.2 hleader)]
  dsimp only
  split
  · exact ⟨_, _, rfl⟩
  · exact ⟨s.commitIndex, s.history, rfl⟩

/-- A round sends a request, with entries up to the end of the log at most. -/
theorem replicateLogsTo_eq (cfg : Config σ) (peer : ℕ) (hne : s.log ≠ []) :
    ∃ entries : List LogEntry,
      s.replicateLogsTo cfg peer = s.sendEntries peer (s.followerState peer) entries ∧
        entries.length ≤ s.latestIndex + 1 - (s.followerState peer).nextIndex := by
  rw [replicateLogsTo]
  split
  · next hle =>
    have hlatest := latestIndex_eq hne
    have hpos := length_pos_of_ne_nil hne
    obtain ⟨m, hload, -⟩ := loadLogEntries_eq cfg hne (min cfg.maxCommandsPerMessage
      (s.latestIndex - (s.followerState peer).nextIndex) + 1) (s.followerState peer).nextIndex 0
      (by omega)
    refine ⟨_, by rw [tryLoadLogEntries, hload], ?_⟩
    rw [length_take, length_drop]
    omega
  · exact ⟨[], rfl, Nat.zero_le _⟩

/-- **When a rejection lets the leader back up**: only if the follower's log ends before the
rejected request. Otherwise the follower reports an index at or past the one that did not match. -/
theorem backsUp_iff (cfg : Config σ) (s f : Server σ) (peer : ℕ) (req : AppendEntriesRequest)
    (hne : s.log ≠ []) (hleader : s.state = .leader) (hprev : req.prevLogIndex ≤ s.latestIndex)
    (hmismatch : f.getLogTerm req.prevLogIndex ≠ req.prevLogTerm) :
    BacksUp cfg s f peer req ↔ f.latestIndex < req.prevLogIndex := by
  rw [BacksUp, handleAppendEntriesRequest_of_not_accepts cfg s.id fun h ↦ hmismatch h.2]
  simp only [mem_some_iff, forall_eq']
  obtain ⟨index, history, hs'⟩ := handleAppendEntriesResponse_eq hleader peer
    ⟨f.currentTerm, f.latestIndex, false⟩
  generalize hresp : s.handleAppendEntriesResponse peer _ = s' at hs' ⊢
  have hnext : (s'.followerState peer).nextIndex = f.latestIndex + 1 := by
    rw [hs', followerState, recordResponse, AList.lookup_insert, getD_some]
  have hlatest : s'.latestIndex = s.latestIndex := by rw [hs']
  have hid : s'.id = s.id := by rw [hs']
  obtain ⟨entries, hround, hlen⟩ := replicateLogsTo_eq (s := s') cfg peer (by rwa [hs'])
  have hnext' : ((s'.sendEntries peer (s'.followerState peer) entries).1.followerState
      peer).nextIndex = f.latestIndex + 1 + entries.length := by
    rw [sendEntries, followerState, AList.lookup_insert, getD_some, hnext]
  rw [hround, hnext', hnext]
  constructor
  · rintro ⟨⟨req', hsent, hlt⟩, -, -⟩
    rw [sendEntries, hid, hnext] at hsent
    obtain rfl : _ = req' := by simpa using hsent
    rwa [appendEntriesRequest, decr_succ] at hlt
  · intro hlt
    refine ⟨⟨_, by rw [sendEntries, hid], ?_⟩, by omega, by omega⟩
    rwa [hnext, appendEntriesRequest, decr_succ]

theorem backsUp_one : BacksUp trio
    { new trio 1 with state := .leader, log := .replicate 2 ⟨1, .command, []⟩ }
    (.new trio 2) 2 ⟨1, 1, 1, 1, 0, []⟩ :=
  (backsUp_iff trio _ _ 2 _ (by decide) rfl (by decide) (by decide)).2 (by decide)

/-- The leader repeats the request that was rejected. -/
theorem not_backsUp : ∃ (s f : Server Unit) (req : AppendEntriesRequest), s.log ≠ [] ∧
    s.state = .leader ∧ req.prevLogIndex ≤ s.latestIndex ∧ req.term = s.currentTerm ∧
    f.currentTerm ≤ req.term ∧ f.getLogTerm req.prevLogIndex ≠ req.prevLogTerm ∧
    ¬ BacksUp trio s f 2 req := by
  refine ⟨{ new trio 1 with state := .leader, log := .replicate 2 ⟨1, .command, []⟩ },
    { new trio 2 with log := .replicate 2 .empty }, ⟨1, 1, 1, 1, 0, []⟩, by decide, rfl,
    by decide, rfl, by decide, by decide, fun h ↦ ?_⟩
  obtain ⟨⟨req', hsent, hlt⟩, -⟩ := h _ rfl
  cases hsent
  exact absurd hlt (by decide)

end Xzero.Raft.Server
