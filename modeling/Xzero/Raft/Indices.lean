import Xzero.Raft.Acks

/-!
# Index monotonicity

`lastApplied_ <= commitIndex_ <= latestIndex()` in every state, and neither of the first two ever
decreases (`indices_monotone`), in every run in which acknowledgements can be relied on (`Truthful`)
and a leader that records one still finds its commit index reached by more than half of the
followers it knows (`KeepsQuorum`).

**The second condition is on the run because the code takes whatever `computeCommitIndex` returns.**
A response that was overtaken by a later one sets a match index back, and a replication worker that
begins sets it to zero; the commit index then follows it down (`commit_index_set_back`).
-/

namespace Xzero.Raft

open MemoryStore TransitionSystem Cluster Server

variable {σ : Type}

namespace Server

/-- A leader that records a response still finds its commit index reached. -/
def KeepsQuorum (s : Server σ) : Input → Prop
  | .receive src (.appendEntriesResponse resp) =>
    s.state = .leader → Reached (matchIndices (recordResponse s.followers src resp)) s.commitIndex
  | _ => True

instance (s : Server σ) : (inp : Input) → Decidable (s.KeepsQuorum inp)
  | .receive _ (.appendEntriesResponse _) => inferInstanceAs (Decidable (_ → _))
  | .receive _ (.voteRequest _) | .receive _ (.voteResponse _)
  | .receive _ (.appendEntriesRequest _) | .timeout | .command _ | .store _ | .beginLoop _
  | .replicate _ | .apply | .resume => inferInstanceAs (Decidable True)

/-- Acknowledgements can be relied on, and are not taken back below the commit index. -/
def Steady (s : Server σ) (inp : Input) : Prop := s.Truthful inp ∧ s.KeepsQuorum inp

instance (s : Server σ) (inp : Input) : Decidable (s.Steady inp) :=
  inferInstanceAs (Decidable (_ ∧ _))

/-! ### What moves the indices -/

section

variable {cfg : Config σ} {s s' : Server σ} {inp : Input} {out : List Packet}

theorem applyLogs_lastApplied (cfg : Config σ) (s : Server σ) :
    s.lastApplied ≤ (s.applyLogs cfg).lastApplied ∧ ((s.applyLogs cfg).lastApplied = s.lastApplied ∨
        (s.applyLogs cfg).lastApplied ≤ s.commitIndex) := by
  suffices h : (s.applyLogs cfg).commitIndex = s.commitIndex ∧
      s.lastApplied ≤ (s.applyLogs cfg).lastApplied ∧
      ((s.applyLogs cfg).lastApplied = s.lastApplied ∨
        (s.applyLogs cfg).lastApplied ≤ s.commitIndex) from h.2
  refine applyLogs_induction ⟨rfl, le_refl _, .inl rfl⟩ ?_
  rintro t t' ⟨hcommit, hle, -⟩ hnext
  obtain ⟨entry, p, w, new, hlt, -, -, rfl⟩ := applyNext_eq_some hnext
  exact ⟨hcommit, Nat.le_succ_of_le hle, .inr (hcommit ▸ hlt)⟩

theorem Effect.lastApplied_cases (h : Effect cfg s inp s' out) : s.lastApplied ≤ s'.lastApplied ∧
      (s'.lastApplied = s.lastApplied ∨ s'.lastApplied ≤ s.commitIndex) := by
  cases h with
  | voteGranted hle => rw [grantVote_adoptTerm_eq hle]; exact ⟨le_refl _, .inl rfl⟩
  | appendAborted | appendStored => rw [acceptEntries_eq]; exact ⟨le_refl _, .inl rfl⟩
  | @appendCommitted src req =>
    have hsame : (s.acceptEntries req).lastApplied = s.lastApplied := by rw [acceptEntries_eq]
    exact ⟨le_of_eq hsame.symm, .inl hsame⟩
  | applied => exact applyLogs_lastApplied cfg s
  | _ => exact ⟨le_refl _, .inl rfl⟩

end

end Server

/-! ### Lengths -/

/-- No index reaches past the log it is an index of. -/
structure IndexInv (cfg : Config σ) (c : Cluster σ) : Prop extends ReplicationInv cfg c where
  applied : ∀ i, (c.servers i).lastApplied ≤ (c.servers i).commitIndex
  /-- What is committed is in the log. -/
  committed : ∀ i, (c.servers i).commitIndex < (c.servers i).log.length
  /-- What is acknowledged is in the log of the server it is acknowledged to. -/
  acked : ∀ p ∈ c.network, ∀ resp, p.msg = .appendEntriesResponse resp → resp.success = true →
    resp.lastLogIndex < (c.servers p.dst).log.length
  /-- And so is what is believed to be held by a follower. -/
  matched : ∀ i q fs, (c.servers i).followers.lookup q = some fs →
    fs.matchIndex < (c.servers i).log.length
  /-- A server whose handler waits has no longer log than the server it will answer. -/
  waiting : ∀ i peer, (c.servers i).waiting.map Waiting.peer = some peer →
    (c.servers i).log.length ≤ (c.servers peer).log.length

section

variable {cfg : Config σ} {c : Cluster σ} {s' : Server σ} {act : Action} {out : List Packet}

theorem indexInv_start (cfg : Config σ) : IndexInv cfg (.start cfg) where
  toReplicationInv := replicationInv_start cfg
  applied _ := le_refl _
  committed _ := Nat.zero_lt_one
  acked _ hp := absurd hp List.not_mem_nil
  matched _ _ _ h := by cases h
  waiting _ _ h := by cases h

namespace IndexInv

section

variable (h : IndexInv cfg c) (ht : c.Takes cfg act s' out)
include h ht

theorem length_of_accepts (hok : (c.servers act.actor).Truthful act.input) {src : ℕ} {req : AppendEntriesRequest}
    (hinp : act.input = .receive src (.appendEntriesRequest req))
    (hacc : (c.servers act.actor).Accepts req) :
    s'.log.length = req.lastIndex + 1 ∧ req.lastIndex < (c.servers src).log.length := by
  have hassert := hok.2.1
  rw [hinp] at hassert
  obtain ⟨hlen, hlt, -⟩ := h.stored_length (h.delivered ht hinp).readFrom hacc (hassert hacc)
  have heffect := ht.effect
  rw [hinp] at heffect
  exact ⟨(heffect.log_of_accepts hacc).symm ▸ hlen, hlt⟩

theorem matched_after (hok : (c.servers act.actor).AppendOnly act.input) {q : ℕ} {fs : FollowerState}
    (hq : s'.followers.lookup q = some fs) : fs.matchIndex < s'.log.length := by
  have hpos := (h.log act.actor).length_pos
  have hgrow := (ht.effect.log_isPrefix hok.2 (h.log _).log_ne_nil).length_le
  rcases ht.effect.lookup_followers hq with
    ⟨fs₀, hold, heq⟩ | ⟨hzero, -⟩ | ⟨resp, hinp, hmatch⟩
  · have hlt := h.matched act.actor q fs₀ hold
    omega
  · omega
  · split_ifs at hmatch with hsuccess
    · have hlt := h.acked ⟨q, act.actor, .appendEntriesResponse resp⟩
        (ht.deliver _ (by rw [Action.packet, hinp]; rfl)) resp rfl hsuccess
      have hlt : resp.lastLogIndex < (c.servers act.actor).log.length := hlt
      omega
    · omega

/-- **The commit index grows, within the log.** -/
theorem commitIndex_after (hok : (c.servers act.actor).Steady act.input) :
    (c.servers act.actor).commitIndex ≤ s'.commitIndex ∧ s'.commitIndex < s'.log.length := by
  have hcommit := h.committed act.actor
  have hgrow := (ht.effect.log_isPrefix hok.1.appendOnly.2 (h.log _).log_ne_nil).length_le
  rcases ht.effect.commitIndex_cases with
    heq | ⟨src, req, hinp, hacc, hlt, heq⟩ | ⟨src, resp, hinp, hl, hfollowers, heq⟩
  · omega
  · obtain ⟨hlen, -⟩ := h.length_of_accepts ht hok.1 hinp hacc
    omega
  · obtain ⟨hreached, hhighest⟩ := computeCommitIndex_spec (matchIndices_ne_nil hfollowers)
    rw [← heq] at hreached hhighest
    have hquorum := hok.2
    rw [hinp] at hquorum
    refine ⟨hhighest _ (hfollowers ▸ hquorum hl), ?_⟩
    -- Some follower is believed to have reached the new commit index.
    obtain ⟨m, hm, hle⟩ := List.countP_pos_iff.1 (Nat.lt_of_lt_of_le (Nat.succ_pos _) hreached)
    obtain ⟨q, fs, hlookup, rfl⟩ := mem_matchIndices.1 hm
    exact lt_of_le_of_lt (of_decide_eq_true hle) (h.matched_after ht hok.1.appendOnly hlookup)

theorem length_le_after (hok : (c.servers act.actor).AppendOnly act.input) (j : ℕ) :
    (c.servers j).log.length ≤ ((c.after act s' out).servers j).log.length :=
  (h.log_isPrefix ht hok j).length_le

theorem stored_after (hok : (c.servers act.actor).Truthful act.input) {src : ℕ} {req : AppendEntriesRequest}
    (hinp : act.input = .receive src (.appendEntriesRequest req))
    (hacc : (c.servers act.actor).Accepts req) :
    s'.log.length ≤ ((c.after act s' out).servers src).log.length := by
  obtain ⟨hlen, hlt⟩ := h.length_of_accepts ht hok hinp hacc
  have hgrow := h.length_le_after ht hok.appendOnly src
  omega

theorem waiting_after (hok : (c.servers act.actor).Truthful act.input) {peer : ℕ}
    (hw : s'.waiting.map Waiting.peer = some peer) :
    s'.log.length ≤ ((c.after act s' out).servers peer).log.length := by
  rcases ht.effect.peer_of_waiting hw with hold | ⟨req, hinp, hacc⟩
  · rw [log_eq_of_waiting ht.handle hok.2.2 hold]
    exact le_trans (h.waiting _ peer hold) (h.length_le_after ht hok.appendOnly peer)
  · exact h.stored_after ht hok hinp hacc

/-- **An acknowledgement stays within the log of the server it goes to.** -/
theorem acked_after (hok : (c.servers act.actor).Truthful act.input) {p : Packet} {resp : AppendEntriesResponse}
    (hp : p ∈ out) (hmsg : p.msg = .appendEntriesResponse resp) (hsuccess : resp.success = true) :
    resp.lastLogIndex < ((c.after act s' out).servers p.dst).log.length := by
  obtain ⟨-, hack, hfrom⟩ := ht.effect.ack_of_mem_out hp hmsg
  obtain ⟨-, hlast⟩ := hack hsuccess
  have hlog := (h.toReplicationInv.after ht hok.appendOnly).log act.actor
  rw [after_servers_self] at hlog
  rw [hlast, latestIndex_eq hlog.log_ne_nil]
  refine Nat.lt_of_lt_of_le (Nat.sub_lt hlog.length_pos Nat.zero_lt_one) ?_
  rcases hfrom with ⟨req, hinp, hacc⟩ | ⟨-, hsame, index, hw⟩
  · exact h.stored_after ht hok hinp (hacc hsuccess)
  · rw [show s'.log = (c.servers act.actor).log from congrArg log hsame]
    exact Nat.le_trans (h.waiting act.actor p.dst (by rw [hw]; rfl))
      (h.length_le_after ht hok.appendOnly p.dst)

theorem after (hok : (c.servers act.actor).Steady act.input) : IndexInv cfg (c.after act s' out) := by
  have happend := hok.1.appendOnly
  have hgrow := h.length_le_after ht happend
  have hcommit := h.commitIndex_after ht hok
  refine { h.toReplicationInv.after ht happend with
    applied := fun j ↦ ?_
    committed := fun j ↦ ?_
    acked := fun p hp resp hmsg hsuccess ↦ ?_
    matched := fun j ↦ ?_
    waiting := fun j ↦ ?_ }
  · refine after_cases ?_ h.applied j
    have happlied := h.applied act.actor
    rcases ht.effect.lastApplied_cases.2 with hle | hle <;> omega
  · exact after_cases hcommit.2 h.committed j
  · rcases List.mem_append.1 hp with hp | hp
    · have hlt := h.acked p (Action.mem_of_mem_consume hp) resp hmsg hsuccess
      exact lt_of_lt_of_le hlt (hgrow _)
    · exact h.acked_after ht hok.1 hp hmsg hsuccess
  · exact after_cases (fun q fs hq ↦ h.matched_after ht happend hq) h.matched j
  · refine after_cases (fun peer hw ↦ h.waiting_after ht hok.1 hw) (fun j peer hw ↦ ?_) j
    exact le_trans (h.waiting j peer hw) (hgrow peer)

end

end IndexInv

theorem Reachable.indexInv (h : Reachable cfg Server.Steady c) : IndexInv cfg c :=
  h.invariant_after (indexInv_start cfg) fun _ hinv ht hok ↦ hinv.after ht hok

/-- `lastApplied_ <= commitIndex_ <= latestIndex()`. -/
def Ordered (s : Server σ) : Prop :=
  s.lastApplied ≤ s.commitIndex ∧ s.commitIndex ≤ s.latestIndex

instance (s : Server σ) : Decidable (Ordered s) := inferInstanceAs (Decidable (_ ∧ _))

/-- Neither index is lower in the second state. -/
def IndicesGrow (s s' : Server σ) : Prop :=
  s.commitIndex ≤ s'.commitIndex ∧ s.lastApplied ≤ s'.lastApplied

instance (s s' : Server σ) : Decidable (IndicesGrow s s') := inferInstanceAs (Decidable (_ ∧ _))

/-- **Index monotonicity**, in every cluster and every run in which acknowledgements can be relied
on and are not taken back below the commit index. -/
theorem indices_monotone (h : Reachable cfg Server.Steady c) : (∀ i, Ordered (c.servers i)) ∧
      ∀ act c', onActor Server.Steady c act → c.step cfg act = some c' →
        ∀ i, IndicesGrow (c.servers i) (c'.servers i) := by
  have hinv := h.indexInv
  refine ⟨fun i ↦ ⟨hinv.applied i, ?_⟩, fun act c' hok hst ↦ ?_⟩
  · exact (le_latestIndex_iff (hinv.log i).log_ne_nil).2 (hinv.committed i)
  · obtain ⟨s', out, ht, rfl⟩ := step_eq_some_iff.1 hst
    exact forall_after (fun _ ↦ ⟨le_refl _, le_refl _⟩)
      ⟨(hinv.commitIndex_after ht hok).1, ht.effect.lastApplied_cases.1⟩

end

/-- Server 1 is elected and sends a heartbeat to server 2, whose acknowledgement is delayed. It then
replicates an entry to both others, is given their acknowledgements, commits and applies. -/
def commitPastHeartbeat : List Action :=
  Action.election 1 [2, 3] 2 0 0 ++ [⟨1, .beginLoop 2⟩, ⟨1, .beginLoop 3⟩,
      ⟨1, .replicate 2⟩, .appends 1 2 ⟨2, 1, 0, 0, 0, []⟩,
      ⟨1, .command [7]⟩,
      ⟨1, .replicate 2⟩, .appends 1 2 ⟨2, 1, 0, 0, 0, [.ofCommand 2 [7]]⟩,
      ⟨1, .replicate 3⟩, .appends 1 3 ⟨2, 1, 0, 0, 0, [.ofCommand 2 [7]]⟩,
      .acks 2 1 2 1, .acks 3 1 2 1, ⟨1, .apply⟩]

/-- Up to there the indices are in order. -/
theorem ordered_of_commit : ∃ c, Reachable .trio Server.Steady c ∧ (c.servers 1).lastApplied = 1 ∧
      Ordered (c.servers 1) := by
  obtain ⟨c, hc, happlied⟩ : ∃ c, Reachable .trio Server.Steady c ∧ (c.servers 1).lastApplied = 1 :=
    exists_reach_of_run commitPastHeartbeat (by decide)
  exact ⟨c, hc, happlied, (indices_monotone hc).1 1⟩

/-- The delayed acknowledgement arrives, and **sets the commit index back to zero**, below the last
applied index. -/
theorem commit_index_set_back :
    ∃ c, Reachable .trio anyStep c ∧ ∃ c' ∈ c.step .trio (.acks 2 1 2 0),
      ¬ IndicesGrow (c.servers 1) (c'.servers 1) ∧ ¬ Ordered (c'.servers 1) :=
  exists_reach_of_run commitPastHeartbeat (by decide)

end Xzero.Raft
