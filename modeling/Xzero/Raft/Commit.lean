import Xzero.Raft.Acks
import Xzero.Raft.LogMatching

/-!
# Commits and state machine safety

**A commit needs a majority** (`commit_needs_majority`), and **no two servers apply different
commands at one index** (`state_machine_safety`), in every run that meets `Sound`:

* elections are fair (`FairVote`), so that logs match;
* acknowledgements can be relied on (`Truthful`), so that a match index says how far the follower's
  log agrees with the leader's — not only how long it is;
* a leader that records a response knows enough followers for a majority of those, and itself, to be
  a majority of the members (`KnowsEnough`).

The last two are what the code does not see to. `matchIndex` is taken from the follower's latest
index, which only the assertion compares with what the leader has sent, and the majority in
`computeCommitIndex` is one of the followers that happen to be in `followers_`
(`committed_by_two_of_four`).

Logs only grow in such runs, so an agreement of a majority with a log, up to an index, is there to
stay (`Backed`): it is what a commit index stands for, on a leader, in a request, and on a follower.
-/

namespace Xzero.Raft

open List Server MemoryStore TransitionSystem Cluster Reachable Action Majority

variable {σ : Type}

namespace Server

/-- A leader that records a response knows so many followers that more than half of them, and
itself, are a majority of the members. -/
def KnowsEnough (cfg : Config σ) (s : Server σ) : Input → Prop
  | .receive src (.appendEntriesResponse resp) => s.state = .leader →
    cfg.members.length < 2 * ((matchIndices (recordResponse s.followers src resp)).length / 2 + 2)
  | _ => True

instance (cfg : Config σ) (s : Server σ) : (inp : Input) → Decidable (s.KnowsEnough cfg inp)
  | .receive _ (.appendEntriesResponse _) => inferInstanceAs (Decidable (_ → _))
  | .receive _ (.voteRequest _) | .receive _ (.voteResponse _)
  | .receive _ (.appendEntriesRequest _) | .timeout | .command _ | .store _ | .beginLoop _
  | .replicate _ | .apply | .resume => inferInstanceAs (Decidable True)

/-- Elections are fair, acknowledgements can be relied on, and leaders know enough followers. -/
def Sound (cfg : Config σ) (s : Server σ) (inp : Input) : Prop :=
  s.FairVote inp ∧ s.Truthful inp ∧ s.KnowsEnough cfg inp

instance (cfg : Config σ) (s : Server σ) (inp : Input) : Decidable (s.Sound cfg inp) :=
  inferInstanceAs (Decidable (_ ∧ _))

/-- The server cast a ballot in a term, for itself or another, when its log was the given one. -/
def Casts (s : Server σ) (term : ℕ) (log : List LogEntry) : Prop :=
  .candidacy term log ∈ s.history ∨ ∃ candidate, .voted term candidate log ∈ s.history

/-- The server's log agrees with another up to an index, and so do the logs of its ballots in terms
later than the given one. -/
def Upholds (s : Server σ) (term : ℕ) (log : List LogEntry) (k : ℕ) : Prop :=
  AgreeTo s.log log k ∧ ∀ term' log', s.Casts term' log' → term < term' → AgreeTo log' log k

section

variable {cfg : Config σ} {s s' : Server σ} {inp : Input} {out : List Packet} {term term' k : ℕ}
  {log log' : List LogEntry}

theorem Casts.le (h : s.Casts term log) (hb : s.Bound) : term ≤ s.currentTerm := by
  rcases h with h | ⟨candidate, h⟩
  · exact hb.le (term, s.id) (mem_filterMap.2 ⟨_, h, rfl⟩)
  · exact hb.le (term, candidate) (mem_filterMap.2 ⟨_, h, rfl⟩)

theorem Casts.snapshot (h : s.Casts term log) (hs : s.Snapshots) : log ≠ [] ∧ log <+: s.log := by
  rcases h with h | ⟨candidate, h⟩
  · exact hs _ h log rfl
  · exact hs _ h log rfl

theorem Effect.casts (h : Effect cfg s inp s' out) (hc : s'.Casts term log) :
    s.Casts term log ∨ log = s.log := by
  rcases hc with hc | ⟨candidate, hc⟩
  · rcases h.of_mem_history hc with hold | ⟨-, -, -, hlog⟩
    · exact .inl (.inl hold)
    · exact .inr hlog
  · rcases h.of_mem_history hc with hold | ⟨src, req, -, -, -, -, hlog⟩
    · exact .inl (.inr ⟨candidate, hold⟩)
    · exact .inr hlog

/-- **What is upheld stays so**: a new ballot is cast with the log that agrees. -/
theorem Effect.upholds (h : Effect cfg s inp s' out) (hgrow : s.log <+: s'.log)
    (hu : s.Upholds term log k) : s'.Upholds term log k := by
  refine ⟨hu.1.mono hgrow (prefix_refl _), fun term' log' hc hlt ↦ ?_⟩
  rcases h.casts hc with hold | rfl
  · exact hu.2 term' log' hold hlt
  · exact hu.1

theorem Upholds.mono (h : s.Upholds term log k) (hterm : term ≤ term') (hlog : log <+: log') :
    s.Upholds term' log' k :=
  ⟨h.1.mono (prefix_refl _) hlog, fun t l hc hlt ↦
    (h.2 t l hc (lt_of_le_of_lt hterm hlt)).mono (prefix_refl _) hlog⟩

theorem Upholds.of_le {j : ℕ} (h : s.Upholds term log k) (hj : j ≤ k) : s.Upholds term log j :=
  ⟨h.1.of_le hj, fun t l hc hlt ↦ (h.2 t l hc hlt).of_le hj⟩

theorem upholds_of_isPrefix (hb : s.Bound) (hterm : s.currentTerm ≤ term) (hcopy : s.log <+: log)
    (hk : k < s.log.length) : s.Upholds term log k := by
  refine ⟨.of_isPrefix hcopy hk, fun term' log' hc hlt ↦ ?_⟩
  have hle := hc.le hb
  omega

end

end Server

/-! ### Agreement of a majority -/

/-- `q` upholds the log of `i`, up to an index, against the terms that `i` has not reached. -/
def Vouches (c : Cluster σ) (q i k : ℕ) : Prop :=
  (c.servers q).Upholds (c.servers i).currentTerm (c.servers i).log k

/-- The logs of a majority agree with the server's up to an index. -/
def Backed (cfg : Config σ) (c : Cluster σ) (i k : ℕ) : Prop :=
  Majority cfg.members.toFinset fun m ↦ AgreeTo (c.servers m).log (c.servers i).log k

/-- What acknowledgements and commit indices stand for. -/
structure CommitInv (cfg : Config σ) (c : Cluster σ) : Prop extends AppendInv cfg c where
  /-- An acknowledgement says how far two logs agree. -/
  acked : ∀ p ∈ c.network, ∀ resp, p.msg = .appendEntriesResponse resp →
    p.src ∈ cfg.peers p.dst ∧ (resp.success = true → Vouches c p.src p.dst resp.lastLogIndex)
  matched : ∀ i q fs, (c.servers i).followers.lookup q = some fs →
    q ∈ cfg.peers i ∧ Vouches c q i fs.matchIndex
  /-- The log of a server whose handler waits is a prefix of the log it will acknowledge, and its
  term is not newer. -/
  waiting : ∀ i peer, (c.servers i).waiting.map Waiting.peer = some peer →
    i ∈ cfg.peers peer ∧ (c.servers i).log <+: (c.servers peer).log ∧
      (c.servers i).currentTerm ≤ (c.servers peer).currentTerm
  /-- A commit index in flight is backed. -/
  leaderCommit : ∀ p ∈ c.network, ∀ req, p.msg = .appendEntriesRequest req →
    Backed cfg c p.src req.leaderCommit
  committed : ∀ i ∈ cfg.members, Backed cfg c i (c.servers i).commitIndex
  /-- What has been applied is in the log, and backed. -/
  applied : ∀ i index entry reply, .applied index entry reply ∈ (c.servers i).history →
    (c.servers i).log[index]? = some entry ∧ Backed cfg c i index

section

variable {cfg : Config σ} {c c' : Cluster σ} {s' : Server σ} {act : Action} {out : List Packet}

theorem Backed.mono {i k : ℕ} (h : Backed cfg c i k)
    (hgrow : ∀ j, (c.servers j).log <+: (c'.servers j).log) : Backed cfg c' i k :=
  Majority.mono h fun m _ hm ↦ hm.mono (hgrow m) (hgrow i)

theorem Backed.of_le {i j k : ℕ} (h : Backed cfg c i k) (hjk : j ≤ k) : Backed cfg c i j :=
  Majority.mono h fun _ _ hm ↦ hm.of_le hjk

theorem Backed.of_agreeTo {i j k : ℕ} (h : Backed cfg c i k)
    (hij : AgreeTo (c.servers i).log (c.servers j).log k) : Backed cfg c j k :=
  Majority.mono h fun _ _ hm ↦ hm.trans hij

theorem Backed.lt_length {i k : ℕ} (h : Backed cfg c i k) : k < (c.servers i).log.length := by
  obtain ⟨m, -, hm, -⟩ := exists_and h h
  exact hm.symm.lt_length

section

variable (h : AppendInv cfg c) (ht : c.Takes cfg act s' out)
  (hok : (c.servers act.actor).AppendOnly act.input)
include h ht hok

theorem AppendInv.upholds_after {q term k : ℕ} {log : List LogEntry}
    (hu : (c.servers q).Upholds term log k) :
    ((c.after act s' out).servers q).Upholds term log k :=
  forall_after (fun _ hu ↦ hu) (ht.effect.upholds (ht.effect.log_isPrefix hok.2 (h.log _).log_ne_nil)) q hu

theorem AppendInv.vouches_after {q i k : ℕ} (hv : Vouches c q i k) :
    Vouches (c.after act s' out) q i k :=
  (h.upholds_after ht hok hv).mono (ht.grow hok.1 i).2 (h.log_isPrefix ht hok i)

end

theorem AppendInv.vouches_zero (h : AppendInv cfg c) (q i : ℕ) : Vouches c q i 0 := by
  refine ⟨h.agreeTo_zero q i, fun term log hc _ ↦ ?_⟩
  obtain ⟨hne, hle⟩ := hc.snapshot (h.snapshots q)
  exact (AgreeTo.of_isPrefix hle (length_pos_of_ne_nil hne)).trans (h.agreeTo_zero q i)

theorem ReplicationInv.backed_zero (h : ReplicationInv cfg c) {i : ℕ} (hi : i ∈ cfg.members) :
    Backed cfg c i 0 := by
  refine ⟨cfg.members.toFinset, Finset.Subset.refl _, ?_, fun m _ ↦ h.agreeTo_zero m i⟩
  have hpos : 0 < cfg.members.toFinset.card := Finset.card_pos.2 ⟨i, mem_toFinset.2 hi⟩
  omega

/-- **A request whose assertion holds makes the log a prefix of its sender's.** -/
theorem AppendInv.stored_isPrefix (h : AppendInv cfg c) (hsafe : ElectionSafe c)
    (horigin : Origin c) (ht : c.Takes cfg act s' out)
    (hok : (c.servers act.actor).Asserts act.input) {src : ℕ} {req : AppendEntriesRequest}
    (hinp : act.input = .receive src (.appendEntriesRequest req))
    (hacc : (c.servers act.actor).Accepts req) :
    s'.log <+: (c.servers src).log ∧ s'.log.length = req.lastIndex + 1 := by
  rw [hinp] at hok
  have hcont := hok hacc
  have hne := (h.log act.actor).log_ne_nil
  have hread := (h.delivered ht hinp).readFrom
  obtain ⟨hlen, -, -⟩ := h.stored_length hread hacc hcont
  have heffect := ht.effect
  rw [hinp] at heffect
  rw [heffect.log_of_accepts hacc]
  refine ⟨?_, hlen⟩
  rw [storeEntries_log hne hcont.2.2]
  rcases h.agreeTo_prev hsafe horigin hread hacc with ⟨hprev, hentries⟩ | ⟨hpos, hterm, -⟩
  · have hreach := hcont.2.1
    rw [latestIndex_eq hne, AppendEntriesRequest.lastIndex] at hreach
    have hall := hprev.isPrefix_of_overlap
      (h.agreeTo_overlap hsafe horigin hentries hcont.2.2) (by omega)
    exact append_drop_isPrefix hall hentries hprev.lt_length
  · have hzero := (h.log act.actor).eq_zero_of_getLogTerm
      ((le_latestIndex_iff hne).1 hcont.1) (hacc.2.trans hterm)
    omega

/-- **What more than half of enough followers have, and then the leader too, a majority has.** -/
theorem majority_of_reached {i n : ℕ} {followers : AList fun _ : ℕ ↦ FollowerState}
    {P : ℕ → Prop} (hi : i ∈ cfg.members)
    (hmatched : ∀ q fs, followers.lookup q = some fs → q ∈ cfg.peers i ∧ (n ≤ fs.matchIndex → P q))
    (hself : ∀ q, P q → P i) (hreached : Server.Reached (matchIndices followers) n)
    (hknows : cfg.members.length < 2 * ((matchIndices followers).length / 2 + 2)) :
    Majority cfg.members.toFinset P := by
  obtain ⟨V, hnodup, hlen, hV⟩ := exists_followers_of_reached hreached
  have hmem : ∀ q ∈ V, q ∈ cfg.peers i ∧ P q := by
    intro q hq
    obtain ⟨fs, hlookup, hle⟩ := hV q hq
    obtain ⟨hpeer, hP⟩ := hmatched q fs hlookup
    exact ⟨hpeer, hP hle⟩
  have hiV : i ∉ V := fun h ↦ ((cfg.mem_peers).1 (hmem i h).1).2 rfl
  -- At least one follower has been counted.
  obtain ⟨q, hq⟩ : ∃ q, q ∈ V := exists_mem_of_length_pos (by omega)
  refine ⟨(i :: V).toFinset, ?_, ?_, ?_⟩
  · intro m hm
    rcases mem_cons.1 (mem_toFinset.1 hm) with rfl | hm
    · exact mem_toFinset.2 hi
    · exact mem_toFinset.2 ((cfg.mem_peers).1 (hmem m hm).1).1
  · rw [toFinset_card_of_nodup cfg.nodup_members,
      toFinset_card_of_nodup (nodup_cons.2 ⟨hiV, hnodup⟩), length_cons]
    omega
  · intro m hm
    rcases mem_cons.1 (mem_toFinset.1 hm) with rfl | hm
    · exact hself q (hmem q hq).2
    · exact (hmem m hm).2

namespace CommitInv

theorem matched_after (h : CommitInv cfg c) (ht : c.Takes cfg act s' out)
    (hok : (c.servers act.actor).AppendOnly act.input) {q : ℕ} {fs : FollowerState}
    (hq : s'.followers.lookup q = some fs) :
    q ∈ cfg.peers act.actor ∧ Vouches (c.after act s' out) q act.actor fs.matchIndex := by
  have hzero := (h.toAppendInv.after ht hok).vouches_zero q act.actor
  rcases ht.effect.lookup_followers hq with
    ⟨fs₀, hold, heq⟩ | ⟨hmatch, hpeer⟩ | ⟨resp, hinp, hmatch⟩
  · obtain ⟨hpeer, hv⟩ := h.matched act.actor q fs₀ hold
    exact ⟨hpeer, heq ▸ h.vouches_after ht hok hv⟩
  · rw [hmatch]
    refine ⟨?_, hzero⟩
    have hworker := h.worker act.actor
    have hid := h.id act.actor
    rcases hpeer with hpeer | hpeer | hpeer
    · exact hid ▸ hpeer
    · exact hid ▸ hworker.loopTasks q hpeer
    · exact hid ▸ hworker.loops q hpeer
  · obtain ⟨hpeer, hv⟩ := h.acked ⟨q, act.actor, .appendEntriesResponse resp⟩
      (ht.deliver _ (by rw [packet, hinp]; rfl)) resp rfl
    refine ⟨hpeer, ?_⟩
    rw [hmatch]
    split_ifs with hsuccess
    · exact h.vouches_after ht hok (hv hsuccess)
    · exact hzero

/-- **A majority vouches for the commit index a leader computes.** -/
theorem vouched_after (h : CommitInv cfg c) (ht : c.Takes cfg act s' out)
    (hok : (c.servers act.actor).Sound cfg act.input) (hb : s'.Bound) {src : ℕ}
    {resp : AppendEntriesResponse} (hinp : act.input = .receive src (.appendEntriesResponse resp))
    (hl : (c.servers act.actor).state = .leader)
    (hfollowers : s'.followers = recordResponse (c.servers act.actor).followers src resp) :
    Majority cfg.members.toFinset fun q ↦
      Vouches (c.after act s' out) q act.actor (computeCommitIndex s'.followers) := by
  have hknows := hok.2.2
  rw [hinp] at hknows
  refine majority_of_reached ht.mem (fun q fs hq ↦ ?_) (fun q hq ↦ ?_)
    (computeCommitIndex_spec (matchIndices_ne_nil hfollowers)).1 (hfollowers ▸ hknows hl)
  · obtain ⟨hpeer, hv⟩ := h.matched_after ht hok.2.1.appendOnly hq
    exact ⟨hpeer, Upholds.of_le hv⟩
  · exact upholds_of_isPrefix (by rwa [after_servers_self]) (le_refl _)
      (prefix_refl _) hq.1.symm.lt_length

section

variable (h : CommitInv cfg c) (hsafe : ElectionSafe c) (horigin : Origin c)
  (ht : c.Takes cfg act s' out) (hok : (c.servers act.actor).Sound cfg act.input)
include h hsafe horigin ht hok

/-- **A commit index that is assigned is backed**: a leader's by the followers that have reached
it, a follower's by the leader's. -/
theorem committed_after (hb : s'.Bound) : Backed cfg (c.after act s' out) act.actor s'.commitIndex := by
  have happend := hok.2.1.appendOnly
  have hgrow := h.log_isPrefix ht happend
  rcases ht.effect.commitIndex_cases with
    heq | ⟨src, req, hinp, hacc, -, heq⟩ | ⟨src, resp, hinp, hl, hfollowers, heq⟩
  · rw [heq]
    exact (h.committed _ ht.mem).mono hgrow
  · obtain ⟨hcopy, hlen⟩ := h.stored_isPrefix hsafe horigin ht hok.2.1.2.1 hinp hacc
    have hbacked := (h.leaderCommit _ (ht.deliver _ (by rw [packet, hinp]; rfl)) req rfl).mono hgrow
    rw [heq]
    refine (hbacked.of_le (min_le_left _ req.lastIndex)).of_agreeTo ?_
    rw [after_servers_self]
    exact (AgreeTo.of_isPrefix (hcopy.trans (hgrow src)) (by omega)).symm
  · rw [heq]
    exact (h.vouched_after ht hok hb hinp hl hfollowers).mono fun _ _ hv ↦ hv.1

/-- What an accepted request leaves is a copy of its sender's log, in a term the sender has
reached. -/
theorem stored_after {src : ℕ}
    {req : AppendEntriesRequest} (hinp : act.input = .receive src (.appendEntriesRequest req))
    (hacc : (c.servers act.actor).Accepts req) :
    s'.log <+: ((c.after act s' out).servers src).log ∧
      s'.currentTerm ≤ ((c.after act s' out).servers src).currentTerm := by
  have happend := hok.2.1.appendOnly
  have heffect := ht.effect
  rw [hinp] at heffect
  refine ⟨?_, ?_⟩
  · exact (h.stored_isPrefix hsafe horigin ht hok.2.1.2.1 hinp hacc).1.trans
      (h.log_isPrefix ht happend src)
  · rw [heffect.currentTerm_of_accepts hacc]
    exact le_trans (h.delivered ht hinp).term_le (ht.grow happend.1 src).2

theorem acked_after (hb : s'.Bound) {p : Packet} {resp : AppendEntriesResponse} (hp : p ∈ out)
    (hmsg : p.msg = .appendEntriesResponse resp) :
    p.src ∈ cfg.peers p.dst ∧
      (resp.success = true → Vouches (c.after act s' out) p.src p.dst resp.lastLogIndex) := by
  have happend := hok.2.1.appendOnly
  obtain ⟨hsrc, hack, hfrom⟩ := ht.effect.ack_of_mem_out hp hmsg
  rw [h.id] at hsrc
  rw [hsrc]
  have hlog := (h.toReplicationInv.after ht happend).log act.actor
  rw [after_servers_self] at hlog
  -- In both cases the acknowledged log is a copy of the one it is acknowledged to.
  suffices hcopy : act.actor ∈ cfg.peers p.dst ∧ (resp.success = true →
      s'.log <+: ((c.after act s' out).servers p.dst).log ∧
        s'.currentTerm ≤ ((c.after act s' out).servers p.dst).currentTerm) by
    refine ⟨hcopy.1, fun hs ↦ ?_⟩
    obtain ⟨hle, hterm⟩ := hcopy.2 hs
    have hlast : resp.lastLogIndex < s'.log.length := by
      rw [(hack hs).2, latestIndex_eq hlog.log_ne_nil]
      exact Nat.sub_lt hlog.length_pos Nat.zero_lt_one
    rw [Vouches, after_servers_self]
    exact upholds_of_isPrefix hb hterm hle hlast
  rcases hfrom with ⟨req, hinp, hacc⟩ | ⟨-, hsame, index, hw⟩
  · exact ⟨(h.delivered ht hinp).dst_mem,
      fun hs ↦ h.stored_after hsafe horigin ht hok hinp (hacc hs)⟩
  · obtain ⟨hpeer, hle, hterm⟩ := h.waiting act.actor p.dst (by rw [hw]; rfl)
    rw [hsame]
    exact ⟨hpeer, fun _ ↦ ⟨hle.trans (h.log_isPrefix ht happend p.dst),
      le_trans hterm (ht.grow happend.1 p.dst).2⟩⟩

theorem waiting_after {peer : ℕ} (hw : s'.waiting.map Waiting.peer = some peer) :
    act.actor ∈ cfg.peers peer ∧ s'.log <+: ((c.after act s' out).servers peer).log ∧
      s'.currentTerm ≤ ((c.after act s' out).servers peer).currentTerm := by
  have happend := hok.2.1.appendOnly
  rcases ht.effect.peer_of_waiting hw with hold | ⟨req, hinp, hacc⟩
  · obtain ⟨hpeer, hle, hterm⟩ := h.waiting _ peer hold
    rw [log_eq_of_waiting ht.handle hok.2.1.2.2 hold, currentTerm_eq_of_waiting ht.handle hold]
    exact ⟨hpeer, hle.trans (h.log_isPrefix ht happend peer),
      le_trans hterm (ht.grow happend.1 peer).2⟩
  · exact ⟨(h.delivered ht hinp).dst_mem, h.stored_after hsafe horigin ht hok hinp hacc⟩

/-- **What acknowledgements and commit indices stand for is kept by every sound step.** -/
theorem after (hb : s'.Bound) : CommitInv cfg (c.after act s' out) := by
  have happend := hok.2.1.appendOnly
  have hgrow := h.log_isPrefix ht happend
  refine { h.toAppendInv.after ht happend with
    acked := fun p hp resp hmsg ↦ ?_
    matched := fun j ↦ ?_
    waiting := fun j ↦ ?_
    leaderCommit := fun p hp req hmsg ↦ ?_
    committed := fun j ↦ ?_
    applied := fun j index entry reply hev ↦ ?_ }
  · rcases mem_append.1 hp with hp | hp
    · obtain ⟨hpeer, hv⟩ := h.acked p (mem_of_mem_consume hp) resp hmsg
      exact ⟨hpeer, fun hs ↦ h.vouches_after ht happend (hv hs)⟩
    · exact h.acked_after hsafe horigin ht hok hb hp hmsg
  · refine after_cases (fun q fs hq ↦ h.matched_after ht happend hq) (fun j q fs hq ↦ ?_) j
    obtain ⟨hpeer, hv⟩ := h.matched j q fs hq
    exact ⟨hpeer, h.vouches_after ht happend hv⟩
  · refine after_cases (fun peer hw ↦ h.waiting_after hsafe horigin ht hok hw)
      (fun j peer hw ↦ ?_) j
    obtain ⟨hpeer, hle, hterm⟩ := h.waiting j peer hw
    exact ⟨hpeer, hle.trans (hgrow peer), le_trans hterm (ht.grow happend.1 peer).2⟩
  · rcases mem_append.1 hp with hp | hp
    · exact (h.leaderCommit p (mem_of_mem_consume hp) req hmsg).mono hgrow
    · obtain ⟨-, hsrc, -, -, entries, rfl, -⟩ := ht.effect.appendRequest_of_mem_out hp hmsg
      rw [hsrc, h.id]
      exact (h.committed _ ht.mem).mono hgrow
  · exact after_cases (fun _ ↦ h.committed_after hsafe horigin ht hok hb)
      (fun j hj ↦ (h.committed j hj).mono hgrow) j
  · have hkeep : ∀ {i}, (c.servers i).log[index]? = some entry → Backed cfg c i index →
        ((c.after act s' out).servers i).log[index]? = some entry ∧
          Backed cfg (c.after act s' out) i index :=
      fun hget hbacked ↦ ⟨(hgrow _).getElem?_of_some hget, hbacked.mono hgrow⟩
    rcases ht.of_mem_history hev with hold | ⟨rfl, -, -, hle, hget⟩
    · obtain ⟨hget, hbacked⟩ := h.applied j index entry reply hold
      exact hkeep hget hbacked
    · rw [getLogEntry_eq (h.log _).log_ne_nil] at hget
      exact hkeep hget ((h.committed _ ht.mem).of_le hle)

end

end CommitInv

theorem commitInv_start (cfg : Config σ) : CommitInv cfg (.start cfg) where
  toAppendInv := appendInv_start cfg
  acked _ hp := absurd hp not_mem_nil
  matched _ _ _ h := by cases h
  waiting _ _ h := by cases h
  leaderCommit _ hp := absurd hp not_mem_nil
  committed _ hi := (replicationInv_start cfg).backed_zero hi
  applied _ _ _ _ h := absurd h not_mem_nil

section

variable (h : Reachable cfg (Server.Sound cfg) c)
include h

theorem Reachable.electionSafe_of_sound : ElectionSafe c := by
  have hfair : Reachable cfg FairVote c := h.mono fun _ _ hok ↦ hok.1
  exact hfair.electionInv.electionSafe hfair.bound

theorem Reachable.bound_of_sound (i : ℕ) : (c.servers i).Bound := by
  have hfair : Reachable cfg FairVote c := h.mono fun _ _ hok ↦ hok.1
  exact hfair.bound i

theorem Reachable.origin_of_sound : Origin c := by
  have happend : Reachable cfg AppendOnly c := h.mono fun _ _ hok ↦ hok.2.1.appendOnly
  exact happend.origin h.electionSafe_of_sound

theorem Reachable.commitInv : CommitInv cfg c := by
  refine h.invariant_after (commitInv_start cfg) ?_
  intro c act s' out hr hinv ht hok
  exact hinv.after (electionSafe_of_sound hr) (origin_of_sound hr) ht hok
    (ht.effect.bound hok.1.1 (bound_of_sound hr _))

end

/-! ### A commit needs a majority -/

/-- Whenever a server assigns its commit index as a leader, and not to zero, its entry there is in
the logs of more than half of the members. -/
def CommitsByMajority (cfg : Config σ) (c c' : Cluster σ) : Prop :=
  ∀ i new term index log, (c'.servers i).history = new ++ (c.servers i).history →
    .committed .leader term index log ∈ new → 0 < index →
    ∃ entry, (c'.servers i).log[index]? = some entry ∧
      cfg.members.length < 2 * cfg.members.countP fun m ↦ (c'.servers m).log[index]? = some entry

/-- **A commit needs a majority**, in every cluster and at every step of a sound run. -/
theorem commit_needs_majority (h : Reachable cfg (Server.Sound cfg) c) {act : Action}
    (hok : onActor (Server.Sound cfg) c act) (hst : c.step cfg act = some c') :
    CommitsByMajority cfg c c' := by
  intro i new term index log hhist hev _
  have hinv := (commitInv (.step h hok hst)).committed
  obtain ⟨s', out, ht, rfl⟩ := step_eq_some_iff.1 hst
  -- The event has just been recorded, so it is the acting member's, about its new commit index.
  rcases eq_or_ne i act.actor with rfl | hne
  · rw [after_servers_self] at hhist
    obtain ⟨new', hnew', harises⟩ := ht.effect.arises
    obtain rfl : new = new' := append_cancel_right (hhist.symm.trans hnew')
    obtain ⟨-, -, rfl, -⟩ := harises _ hev
    have hbacked := hinv act.actor ht.mem
    have hlt := hbacked.lt_length
    rw [after_servers_self] at hbacked hlt
    refine ⟨_, by rw [after_servers_self]; exact getElem?_eq_getElem hlt, ?_⟩
    refine (majority_toFinset_iff cfg.nodup_members).1 (mono hbacked fun m _ hm ↦ ?_)
    rw [hm.getElem?_eq (le_refl _), after_servers_self, getElem?_eq_getElem hlt]
  · rw [after_servers_of_ne hne] at hhist
    obtain rfl : new = [] := append_cancel_right (hhist.symm.trans (nil_append _).symm)
    cases hev

end

/-- Server 1 is elected, replicates an entry to both others, and is given the acknowledgement of
server 2. -/
def replication : List Action :=
  election 1 [2, 3] 2 0 0 ++ [⟨1, .beginLoop 2⟩, ⟨1, .beginLoop 3⟩, ⟨1, .command [7]⟩,
      ⟨1, .replicate 2⟩, .appends 1 2 ⟨2, 1, 0, 0, 0, [.ofCommand 2 [7]]⟩,
      ⟨1, .replicate 3⟩, .appends 1 3 ⟨2, 1, 0, 0, 0, [.ofCommand 2 [7]]⟩, .acks 2 1 2 1]

/-- The acknowledgement of server 3 then commits the entry. -/
theorem commitsByMajority_of_replication :
    ∃ c c', Reachable .trio (Server.Sound .trio) c ∧ c.step .trio (.acks 3 1 2 1) = some c' ∧
      (c'.servers 1).commitIndex = 1 ∧ CommitsByMajority .trio c c' := by
  obtain ⟨c, hc, hok, c', hst, hcommit⟩ : ∃ c, Reachable .trio (Sound .trio) c ∧
      onActor (Sound .trio) c (.acks 3 1 2 1) ∧
      ∃ c' ∈ c.step .trio (.acks 3 1 2 1), (c'.servers 1).commitIndex = 1 :=
    exists_reach_of_run replication (by decide)
  exact ⟨c, c', hc, hst, hcommit, commit_needs_majority hc hok hst⟩

/-- Of four servers, server 1 is elected in term 2 and replicates an entry to server 2, which is
elected in term 3. The only worker that begins there is the one for server 1, which acknowledges its
first heartbeat. -/
def commitByTwo : List Action :=
  election 1 [2, 3, 4] 2 0 0 ++ [⟨1, .beginLoop 2⟩, ⟨1, .command [1]⟩, ⟨1, .replicate 2⟩,
      .appends 1 2 ⟨2, 1, 0, 0, 0, [.ofCommand 2 [1]]⟩] ++
    election 2 [1, 3, 4] 3 1 2 ++
    [⟨2, .beginLoop 1⟩, ⟨2, .replicate 1⟩, .appends 2 1 ⟨3, 2, 1, 2, 0, []⟩]

/-- The acknowledgement makes server 2 commit the entry, which **two servers of four** hold: the
majority is one of the followers in `followers_`, and that is server 1 alone. -/
theorem committed_by_two_of_four :
    ∃ c c', Reachable .quartet anyStep c ∧ c.step .quartet (.acks 1 2 3 1) = some c' ∧
      ¬ CommitsByMajority .quartet c c' := by
  obtain ⟨c, hc, c', hst, hhist, hentry, htwo⟩ : ∃ c, Reachable .quartet anyStep c ∧
      ∃ c' ∈ c.step .quartet (.acks 1 2 3 1), (c'.servers 2).history =
          [.committed .leader 3 1 [.empty, .ofCommand 2 [1]]] ++ (c.servers 2).history ∧
        (c'.servers 2).log[1]? = some (.ofCommand 2 [1]) ∧
        (Config.quartet.members.countP fun m ↦
          (c'.servers m).log[1]? = some (.ofCommand 2 [1])) = 2 :=
    exists_reach_of_run commitByTwo (by decide)
  refine ⟨c, c', hc, hst, fun h ↦ ?_⟩
  obtain ⟨entry, hentry', hcount⟩ :=
    h 2 _ 3 1 _ hhist (mem_singleton_self _) Nat.zero_lt_one
  obtain rfl : .ofCommand 2 [1] = entry := Option.some.inj (hentry.symm.trans hentry')
  rw [htwo] at hcount
  exact absurd hcount (by decide)

/-! ### State machine safety -/

section

variable {cfg : Config σ} {c : Cluster σ}

/-- No two servers have applied different commands at one index. -/
def StateMachineSafe (c : Cluster σ) : Prop :=
  ∀ i j index entry entry' reply reply', .applied index entry reply ∈ (c.servers i).history →
    .applied index entry' reply' ∈ (c.servers j).history → entry.command = entry'.command

/-- **State machine safety**, in every cluster and every sound run. -/
theorem state_machine_safety (h : Reachable cfg (Server.Sound cfg) c) : StateMachineSafe c := by
  intro i j index entry entry' reply reply' hi hj
  obtain ⟨hget, hbacked⟩ := h.commitInv.applied i index entry reply hi
  obtain ⟨hget', hbacked'⟩ := h.commitInv.applied j index entry' reply' hj
  -- Some member agrees with both.
  obtain ⟨m, -, hm, hm'⟩ := exists_and hbacked hbacked'
  rw [← hm.getElem?_eq (le_refl index), hm'.getElem?_eq (le_refl index), hget'] at hget
  rw [Option.some.inj hget]

end

/-- Server 1 commits and applies an entry, and the next heartbeat makes server 2 do so. -/
theorem stateMachineSafe_of_replication : ∃ c, Reachable .trio (Server.Sound .trio) c ∧
      .applied 1 (.ofCommand 2 [7]) [7] ∈ (c.servers 1).history ∧
      .applied 1 (.ofCommand 2 [7]) [7] ∈ (c.servers 2).history ∧ StateMachineSafe c := by
  obtain ⟨c, hc, h₁, h₂⟩ : ∃ c, Reachable .trio (Sound .trio) c ∧
      .applied 1 (.ofCommand 2 [7]) [7] ∈ (c.servers 1).history ∧
      .applied 1 (.ofCommand 2 [7]) [7] ∈ (c.servers 2).history :=
    exists_reach_of_run (replication ++ [.acks 3 1 2 1, ⟨1, .apply⟩, ⟨1, .replicate 2⟩,
        .appends 1 2 ⟨2, 1, 1, 2, 1, []⟩, ⟨2, .apply⟩, ⟨2, .resume⟩]) (by decide)
  exact ⟨c, hc, h₁, h₂, state_machine_safety hc⟩

/-- Servers 1 and 2 have committed an entry among themselves, and server 2 applies it. Server 3 is
then elected with an empty log, appends another entry and replicates it to server 4; server 4 is
elected, and commits on the acknowledgement of server 3 alone: **two commands are applied at
index 1**. -/
theorem applied_differently : ∃ c, Reachable .quartet anyStep c ∧ ¬ StateMachineSafe c := by
  obtain ⟨c, hc, h₂, h₄⟩ : ∃ c, Reachable .quartet anyStep c ∧
      .applied 1 (.ofCommand 2 [1]) [1] ∈ (c.servers 2).history ∧
      .applied 1 (.ofCommand 4 [2]) [2] ∈ (c.servers 4).history :=
    exists_reach_of_run (commitByTwo ++ [.acks 1 2 3 1, ⟨2, .apply⟩] ++
        election 3 [1, 2, 4] 4 0 0 ++
        [⟨3, .beginLoop 4⟩, ⟨3, .command [2]⟩, ⟨3, .replicate 4⟩,
          .appends 3 4 ⟨4, 3, 0, 0, 0, [.ofCommand 4 [2]]⟩] ++
        election 4 [1, 2, 3] 5 1 4 ++
        [⟨4, .beginLoop 3⟩, ⟨4, .replicate 3⟩, .appends 4 3 ⟨5, 4, 1, 4, 0, []⟩,
          .acks 3 4 5 1, ⟨4, .apply⟩]) (by decide)
  exact ⟨c, hc, fun h ↦ absurd (h 2 4 1 _ _ _ _ h₂ h₄) (by decide)⟩

end Xzero.Raft
