import Xzero.Library.Quorum
import Xzero.Raft.Cluster
import Xzero.Raft.Votes

/-!
# Election safety

At most one server takes the lead in a term (`election_safety`), in every run in which a candidate
is given votes of its own term only. **That is a condition on the run because the code does not
check it**: `handleResponse(VoteResponse)` counts a granted vote whatever its term, so votes of two
earlier candidacies can make two leaders of one later term (`two_leaders_of_stale_votes`).

A vote is on its way from the request for it until it is counted: either the request or the granted
response is in flight, and never both (`pending`). So a candidate that has counted `n` votes of its
term has counted them from `n` different servers, each of which is bound to it by its ballot
(`Counted`); a leader has a majority of ballots (`Crowned`), and two majorities meet in a server
with two ballots of one term.
-/

namespace Xzero.Raft

open List TransitionSystem Server Cluster Packet Action

variable {σ : Type}

namespace Server

/-- A vote that a candidate is given is of its current term. -/
def FreshVote (s : Server σ) : Input → Prop
  | .receive _ (.voteResponse resp) =>
    s.state = .candidate → resp.voteGranted = true → resp.term = s.currentTerm
  | _ => True

instance (s : Server σ) : (inp : Input) → Decidable (s.FreshVote inp)
  | .receive _ (.voteResponse _) => inferInstanceAs (Decidable (_ → _))
  | .receive _ (.voteRequest _) | .receive _ (.appendEntriesRequest _)
  | .receive _ (.appendEntriesResponse _) | .timeout | .command _ | .store _ | .beginLoop _
  | .replicate _ | .apply | .resume => inferInstanceAs (Decidable True)

/-- Terms do not wrap, and votes are not stale. -/
def FairVote (s : Server σ) (inp : Input) : Prop := s.NoWrap inp ∧ s.FreshVote inp

instance (s : Server σ) (inp : Input) : Decidable (s.FairVote inp) :=
  inferInstanceAs (Decidable (_ ∧ _))

end Server

/-! ### Votes on their way -/

/-- The packet is a vote of `b` for `a` in a term, asked for or granted. -/
def Packet.isPending (a b term : ℕ) (p : Packet) : Bool :=
  match p.msg with
  | .voteRequest req => p.src = a ∧ p.dst = b ∧ req.term = term
  | .voteResponse resp => p.src = b ∧ p.dst = a ∧ resp = ⟨term, true⟩
  | _ => false

theorem Packet.isVote_of_isPending {a b term : ℕ} {p : Packet} (h : p.isPending a b term) :
    p.msg.isVote = true := by
  obtain ⟨src, dst, msg⟩ := p
  cases msg with
  | voteRequest => rfl
  | voteResponse resp =>
    simp only [isPending, decide_eq_true_eq] at h
    simp [Message.isVote, h.2.2]
  | appendEntriesRequest | appendEntriesResponse => cases h

/-- The number of votes of `b` for `a` in a term that are on their way. -/
def pending (network : List Packet) (a b term : ℕ) : ℕ := network.countP (isPending a b term)

theorem pending_append (l l' : List Packet) (a b term : ℕ) :
    pending (l ++ l') a b term = pending l a b term + pending l' a b term :=
  countP_append

theorem pending_eq_zero {l : List Packet} (h : ∀ p ∈ l, p.msg.isVote = false) (a b term : ℕ) :
    pending l a b term = 0 := by
  refine countP_eq_zero.2 fun p hp hpend ↦ ?_
  have hvote := h p hp
  rw [isVote_of_isPending hpend] at hvote
  cases hvote

theorem pending_consume_le (act : Action) (network : List Packet) (a b term : ℕ) :
    pending (act.consume network) a b term ≤ pending network a b term :=
  (act.consume_sublist network).countP_le

theorem pending_consume_of_mem (act : Action) {network : List Packet} {p : Packet}
    (hact : act.packet = some p) (hp : p ∈ network) (a b term : ℕ) :
    pending network a b term =
      pending (act.consume network) a b term + if p.isPending a b term then 1 else 0 := by
  have hconsume : act.consume network = network.erase p := by rw [consume, hact]
  rw [hconsume, pending, pending, (perm_cons_erase hp).countP_eq, countP_cons]

theorem pending_sendVoteRequest_le (cfg : Config σ) (s : Server σ) (a b term : ℕ) :
    pending (s.sendVoteRequest cfg).2 a b term ≤
      if a = s.id ∧ term = wrap (s.currentTerm + 1) then 1 else 0 := by
  have hsent : pending (s.sendVoteRequest cfg).2 a b term = (cfg.peers s.id).countP fun peer ↦
      decide (s.id = a ∧ peer = b ∧ wrap (s.currentTerm + 1) = term) := by
    rw [pending, sendVoteRequest, countP_map]
    rfl
  have hcount : (cfg.peers s.id).count b ≤ 1 :=
    nodup_iff_count_le_one.1 (cfg.nodup_peers s.id) b
  rw [hsent]
  split_ifs with h
  · obtain ⟨rfl, rfl⟩ := h
    simpa [count, Bool.beq_eq_decide_eq] using hcount
  · refine le_of_eq (countP_eq_zero.2 fun peer _ hpeer ↦ h ?_)
    have hpeer := of_decide_eq_true hpeer
    exact ⟨hpeer.1.symm, hpeer.2.2.symm⟩

/-- **A vote on its way has been asked for once**: other than by a candidacy, which asks every peer
for a vote of the candidate's new term, votes on their way do not become more. -/
theorem pending_step_le {cfg : Config σ} {s s' : Server σ} {act : Action}
    {network out : List Packet}
    (hid : s.id = act.actor) (hdeliver : ∀ p ∈ act.packet, p ∈ network)
    (h : s.Effect cfg act.input s' out) (a b term : ℕ) :
    pending (act.consume network ++ out) a b term ≤ pending network a b term ∨
      act.input = .timeout ∧ s.state ≠ .leader ∧ a = act.actor ∧
        term = wrap (s.currentTerm + 1) ∧ pending out a b term ≤ 1 := by
  obtain ⟨actor, input⟩ := act
  rw [pending_append]
  have hle := pending_consume_le ⟨actor, input⟩ network a b term
  cases h.election with
  | kept _ hout | adopted _ _ hout =>
    rw [pending_eq_zero hout]
    exact .inl hle
  | counted | elected => exact .inl hle
  | @granted src req _ _ =>
    -- The delivered request and the granted vote are on their way between the same two servers.
    have hmem : (⟨src, actor, .voteRequest req⟩ : Packet) ∈ network := hdeliver _ rfl
    have hconsume := pending_consume_of_mem ⟨actor, .receive src (.voteRequest req)⟩ rfl hmem
    have hsame : pending [⟨s.id, src, .voteResponse ⟨req.term, true⟩⟩] a b term =
        if isPending a b term ⟨src, actor, .voteRequest req⟩ then 1 else 0 := by
      simp [pending, countP_cons, isPending, hid, and_left_comm]
    left
    rw [hconsume a b term, hsame]
  | candidacy hl =>
    have hsent := pending_sendVoteRequest_le cfg { s with state := .candidate } a b term
    split_ifs at hsent with hnew
    · exact .inr ⟨rfl, hl, hnew.1.trans hid, hnew.2, hsent⟩
    · left
      omega

/-! ### Ballots behind a candidate, and behind a leader -/

/-- A candidate has counted as many votes of its term as there are servers bound to it whose votes
are not on their way any more. -/
def Counted (cfg : Config σ) (c : Cluster σ) (a : ℕ) : Prop :=
  (c.servers a).state = .candidate →
    ∃ V ⊆ cfg.members.toFinset, V.card = (c.servers a).votesGranted ∧
      ∀ b ∈ V, pending c.network a b (c.servers a).currentTerm = 0 ∧
        ((c.servers a).currentTerm, a) ∈ (c.servers b).ballots

/-- A majority of the members is bound to vote for `a` in a term. -/
def Crowned (cfg : Config σ) (c : Cluster σ) (a term : ℕ) : Prop :=
  Majority cfg.members.toFinset fun b ↦ (term, a) ∈ (c.servers b).ballots

/-- The course of the elections up to a state. -/
structure ElectionInv (cfg : Config σ) (c : Cluster σ) : Prop where
  id : ∀ i, (c.servers i).id = i
  /-- A vote is asked for by the candidate, in a term it has reached. -/
  request : ∀ p ∈ c.network, ∀ req, p.msg = .voteRequest req →
    req.candidateId = p.src ∧ req.term ≤ (c.servers p.src).currentTerm
  /-- A vote in flight is a ballot of its sender for its recipient. -/
  response : ∀ p ∈ c.network, ∀ term, p.msg = .voteResponse ⟨term, true⟩ →
    p.src ∈ cfg.members ∧ term ≤ (c.servers p.dst).currentTerm ∧
      (term, p.dst) ∈ (c.servers p.src).ballots
  /-- A vote is on its way at most once. -/
  pending_le : ∀ a b term, pending c.network a b term ≤ 1
  /-- Candidates have counted the ballots for them. -/
  counted : ∀ a, Counted cfg c a
  /-- Leaders have a majority of the ballots. -/
  crowned : ∀ a term log, .elected term log ∈ (c.servers a).history → Crowned cfg c a term

section

variable {cfg : Config σ} {c : Cluster σ} {s' : Server σ} {act : Action} {out : List Packet}

theorem electionInv_start (cfg : Config σ) : ElectionInv cfg (.start cfg) where
  id _ := rfl
  request _ hp := absurd hp not_mem_nil
  response _ hp := absurd hp not_mem_nil
  pending_le _ _ _ := Nat.zero_le 1
  counted _ h := by cases h
  crowned _ _ _ h := absurd h not_mem_nil

theorem ElectionInv.pending_eq_zero (h : ElectionInv cfg c) {a b term : ℕ}
    (hlt : (c.servers a).currentTerm < term) : pending c.network a b term = 0 := by
  refine countP_eq_zero.2 fun p hp hpend ↦ ?_
  obtain ⟨src, dst, msg⟩ := p
  cases msg with
  | voteRequest req =>
    obtain ⟨rfl, rfl, rfl⟩ := of_decide_eq_true hpend
    have hle := (h.request _ hp req rfl).2
    omega
  | voteResponse resp =>
    obtain ⟨rfl, rfl, rfl⟩ := of_decide_eq_true hpend
    have hle := (h.response _ hp term rfl).2.1
    omega
  | appendEntriesRequest | appendEntriesResponse => cases hpend

section

variable {s s' : Server σ} {inp : Input} {out : List Packet} (h : s.Effect cfg inp s' out)
  {p : Packet}
include h

/-- Requests for votes are sent by candidates, in their new term, and describe their log. -/
theorem Server.Effect.request_of_mem_out {req : VoteRequest} (hp : p ∈ out)
    (hmsg : p.msg = .voteRequest req) :
    p.src = s.id ∧ req.candidateId = s.id ∧ req.term = s'.currentTerm ∧
      .candidacy req.term s.log ∈ s'.history ∧ req.lastLogIndex = s.latestIndex ∧
      req.lastLogTerm = s.getLogTerm s.latestIndex := by
  cases h.election with
  | kept _ hout | adopted _ _ hout =>
    have hvote := hout p hp
    rw [hmsg] at hvote
    cases hvote
  | candidacy =>
    obtain ⟨peer, -, rfl⟩ := mem_map.1 hp
    cases hmsg
    exact ⟨rfl, rfl, rfl, mem_cons_self, rfl, rfl⟩
  | granted =>
    rw [mem_singleton.1 hp] at hmsg
    cases hmsg
  | counted | elected => cases hp

theorem Server.Effect.response_of_mem_out {term : ℕ} (hp : p ∈ out)
    (hmsg : p.msg = .voteResponse ⟨term, true⟩) :
    p.src = s.id ∧ ∃ req, inp = .receive p.dst (.voteRequest req) ∧ req.term = term ∧
      (term, req.candidateId) ∈ s'.ballots := by
  cases h.election with
  | kept _ hout | adopted _ _ hout =>
    have hvote := hout p hp
    rw [hmsg] at hvote
    cases hvote
  | candidacy =>
    obtain ⟨peer, -, rfl⟩ := mem_map.1 hp
    cases hmsg
  | @granted src req hle =>
    obtain rfl := mem_singleton.1 hp
    cases hmsg
    rw [grantVote_adoptTerm_eq hle]
    exact ⟨rfl, req, rfl, rfl, mem_cons_self⟩
  | counted | elected => cases hp

end

theorem Server.eq_of_ite_follower {s : Server σ} {term : ℕ}
    (h : (if s.currentTerm < term then ServerState.follower else s.state) = .candidate) :
    term ≤ s.currentTerm ∧ s.state = .candidate := by
  split_ifs at h with hlt
  exact ⟨not_lt.1 hlt, h⟩

/-- **Counting a vote of the current term** adds one server to those that have been counted: its
vote was still on its way. -/
theorem ElectionInv.count (h : ElectionInv cfg c) {src : ℕ} {resp : VoteResponse}
    (hact : act.input = .receive src (.voteResponse resp))
    (hdeliver : ∀ p ∈ act.packet, p ∈ c.network)
    (hstate : (c.servers act.actor).state = .candidate) (hgranted : resp.voteGranted = true)
    (hterm : resp.term = (c.servers act.actor).currentTerm) :
    ∃ V ⊆ cfg.members.toFinset, V.card = (c.servers act.actor).votesGranted + 1 ∧
      ∀ b ∈ V, pending (act.consume c.network) act.actor b (c.servers act.actor).currentTerm = 0 ∧
        ((c.servers act.actor).currentTerm, act.actor) ∈ (c.servers b).ballots := by
  obtain ⟨term, granted⟩ := resp
  obtain rfl : granted = true := hgranted
  obtain rfl : term = (c.servers act.actor).currentTerm := hterm
  have hpacket : act.packet =
      some ⟨src, act.actor, .voteResponse ⟨(c.servers act.actor).currentTerm, true⟩⟩ := by
    rw [packet, hact]
  have hmem := hdeliver _ hpacket
  obtain ⟨V, hV, hcard, hall⟩ := h.counted act.actor hstate
  obtain ⟨hsrc, -, hballot⟩ := h.response _ hmem _ rfl
  have hconsume := pending_consume_of_mem act hpacket hmem
  have hsrcV : src ∉ V := by
    intro hin
    have hzero := (hall src hin).1
    have hone := hconsume act.actor src (c.servers act.actor).currentTerm
    simp [isPending] at hone
    omega
  refine ⟨insert src V, ?_, ?_, ?_⟩
  · exact Finset.insert_subset (mem_toFinset.2 hsrc) hV
  · rw [Finset.card_insert_of_notMem hsrcV, hcard]
  · intro b hb
    rcases Finset.mem_insert.1 hb with rfl | hb
    · refine ⟨?_, hballot⟩
      have hone := hconsume act.actor b (c.servers act.actor).currentTerm
      have hle := h.pending_le act.actor b (c.servers act.actor).currentTerm
      simp [isPending] at hone
      omega
    · obtain ⟨hzero, hbound⟩ := hall b hb
      have hle := pending_consume_le act c.network act.actor b (c.servers act.actor).currentTerm
      exact ⟨by omega, hbound⟩

theorem Cluster.Takes.grow (ht : c.Takes cfg act s' out)
    (hok : (c.servers act.actor).NoWrap act.input) (j : ℕ) :
    (c.servers j).ballots ⊆ ((c.after act s' out).servers j).ballots ∧
      (c.servers j).currentTerm ≤ ((c.after act s' out).servers j).currentTerm :=
  forall_after (fun _ ↦ ⟨List.Subset.refl _, le_refl _⟩)
    ⟨ht.effect.ballots_subset, ht.effect.currentTerm_le hok⟩ j

theorem Cluster.Takes.history_subset (ht : c.Takes cfg act s' out) (j : ℕ) :
    (c.servers j).history ⊆ ((c.after act s' out).servers j).history :=
  forall_after (fun _ ↦ List.Subset.refl _)
    ht.effect.history_subset j

/-- What has been recorded was recorded before, or at this step by the acting member. -/
theorem Cluster.Takes.of_mem_history (ht : c.Takes cfg act s' out) {j : ℕ} {ev : Event}
    (hev : ev ∈ ((c.after act s' out).servers j).history) :
    ev ∈ (c.servers j).history ∨
      j = act.actor ∧ Server.Arises cfg (c.servers act.actor) act.input s' ev := by
  revert hev
  exact after_cases (fun hev ↦ (ht.effect.of_mem_history hev).imp_right fun h ↦ ⟨rfl, h⟩)
    (fun _ hev ↦ .inl hev) j

namespace ElectionInv

section

variable (h : ElectionInv cfg c) (ht : c.Takes cfg act s' out)
  (hok : (c.servers act.actor).NoWrap act.input)
include h ht hok

theorem pending_after_le (a b : ℕ) :
    pending (c.after act s' out).network a b (c.servers a).currentTerm ≤
      pending c.network a b (c.servers a).currentTerm := by
  rcases pending_step_le (h.id _) ht.deliver ht.effect a b (c.servers a).currentTerm with
    hle | ⟨hinp, hl, rfl, hterm, -⟩
  · exact hle
  · rw [hinp] at hok
    have hnew := wrap_of_lt (hok hl)
    omega

theorem counted_of_kept {a : ℕ} (hkept : ((c.after act s' out).servers a).state = .candidate →
      (c.servers a).state = .candidate ∧
      ((c.after act s' out).servers a).currentTerm = (c.servers a).currentTerm ∧
      ((c.after act s' out).servers a).votesGranted = (c.servers a).votesGranted) :
    Counted cfg (c.after act s' out) a := by
  intro hstate
  obtain ⟨hold, hterm, hvotes⟩ := hkept hstate
  obtain ⟨V, hV, hcard, hall⟩ := h.counted a hold
  refine ⟨V, hV, hcard.trans hvotes.symm, fun b hb ↦ ?_⟩
  obtain ⟨hzero, hbound⟩ := hall b hb
  have hle := h.pending_after_le ht hok a b
  rw [hterm]
  exact ⟨by omega, (ht.grow hok b).1 hbound⟩

end

section

variable (h : ElectionInv cfg c) (ht : c.Takes cfg act s' out)
  (hok : (c.servers act.actor).FairVote act.input)
include h ht hok

theorem counted_after (a : ℕ) : Counted cfg (c.after act s' out) a := by
  rcases eq_or_ne a act.actor with rfl | hne
  swap
  · refine h.counted_of_kept ht hok.1 ?_
    rw [after_servers_of_ne hne]
    exact fun hstate ↦ ⟨hstate, rfl, rfl⟩
  obtain ⟨actor, input⟩ := act
  cases ht.effect.election with
  | kept hk =>
    refine h.counted_of_kept ht hok.1 ?_
    rw [after_servers_self]
    exact fun hstate ↦ ⟨hk.state ▸ hstate, hk.currentTerm, hk.votesGranted⟩
  | candidacy =>
    intro _
    refine ⟨∅, Finset.empty_subset _, ?_, by simp⟩
    rw [after_servers_self]
    rfl
  | granted hle =>
    refine h.counted_of_kept ht hok.1 ?_
    rw [after_servers_self, grantVote_adoptTerm_eq hle]
    intro hstate
    obtain ⟨hge, hold⟩ := eq_of_ite_follower hstate
    exact ⟨hold, le_antisymm hge hle, rfl⟩
  | @counted src resp _ hgranted =>
    intro hstate
    rw [after_servers_self] at hstate ⊢
    obtain ⟨V, hV, hcard, hall⟩ := h.count rfl ht.deliver hstate hgranted (hok.2 hstate hgranted)
    refine ⟨V, hV, hcard, fun b hb ↦ ?_⟩
    obtain ⟨hzero, hbound⟩ := hall b hb
    refine ⟨?_, (ht.grow hok.1 b).1 hbound⟩
    rw [after_network, append_nil]
    exact hzero
  | elected =>
    intro hstate
    rw [after_servers_self] at hstate
    cases hstate
  | adopted hacc hk =>
    refine h.counted_of_kept ht hok.1 ?_
    have hstate' := hk.state
    have hterm := hk.currentTerm
    have hvotes := hk.votesGranted
    rw [adoptTerm_eq] at hstate' hterm hvotes
    rw [after_servers_self]
    intro hstate
    obtain ⟨hge, hold⟩ := eq_of_ite_follower (hstate' ▸ hstate)
    exact ⟨hold, hterm.trans (max_eq_left hge), hvotes⟩

/-- **Whoever is elected has the ballots of a majority.** -/
theorem crowned_after {a term : ℕ} {log : List LogEntry}
    (hev : .elected term log ∈ ((c.after act s' out).servers a).history) :
    Crowned cfg (c.after act s' out) a term := by
  have hgrow : ∀ {a term}, Crowned cfg c a term → Crowned cfg (c.after act s' out) a term :=
    fun hc ↦ hc.mono fun b _ hb ↦ (ht.grow hok.1 b).1 hb
  rcases ht.of_mem_history hev with
    hold | ⟨rfl, src, resp, hinp, hstate, hgranted, hquorum, rfl, -⟩
  · exact hgrow (h.crowned _ _ _ hold)
  · have hfresh := hok.2
    rw [hinp] at hfresh
    obtain ⟨V, hV, hcard, hall⟩ := h.count hinp ht.deliver hstate hgranted (hfresh hstate hgranted)
    refine hgrow ⟨V, hV, ?_, fun b hb ↦ (hall b hb).2⟩
    rw [toFinset_card_of_nodup cfg.nodup_members]
    rw [Config.quorum] at hquorum
    omega

/-- **The invariant of the elections.** -/
theorem after : ElectionInv cfg (c.after act s' out) where
  id j := by
    refine (forall_after (R := fun s s' ↦ s'.id = s.id) (fun _ ↦ rfl)
      ht.effect.id_eq j).trans (h.id j)
  request p hp req hmsg := by
    rcases mem_append.1 hp with hp | hp
    · obtain ⟨hcand, hterm⟩ := h.request p (mem_of_mem_consume hp) req hmsg
      exact ⟨hcand, le_trans hterm (ht.grow hok.1 p.src).2⟩
    · obtain ⟨hsrc, hcand, hterm, -⟩ := ht.effect.request_of_mem_out hp hmsg
      rw [h.id] at hsrc hcand
      rw [hsrc, after_servers_self]
      exact ⟨hcand, le_of_eq hterm⟩
  response p hp term hmsg := by
    rcases mem_append.1 hp with hp | hp
    · obtain ⟨hsrc, hterm, hballot⟩ := h.response p (mem_of_mem_consume hp) term hmsg
      exact ⟨hsrc, le_trans hterm (ht.grow hok.1 p.dst).2, (ht.grow hok.1 p.src).1 hballot⟩
    · obtain ⟨hsrc, req, hinp, rfl, hballot⟩ := ht.effect.response_of_mem_out hp hmsg
      have hmem : (⟨p.dst, act.actor, .voteRequest req⟩ : Packet) ∈ c.network :=
        ht.deliver _ (by rw [packet, hinp]; rfl)
      obtain ⟨hcand, hterm⟩ := h.request _ hmem req rfl
      rw [show req.candidateId = p.dst from hcand] at hballot
      rw [h.id] at hsrc
      rw [hsrc, after_servers_self]
      exact ⟨ht.mem, le_trans hterm (ht.grow hok.1 p.dst).2, hballot⟩
  pending_le a b term := by
    rcases pending_step_le (h.id _) ht.deliver ht.effect a b term with
      hle | ⟨hinp, hl, rfl, rfl, hle⟩
    · exact le_trans hle (h.pending_le a b term)
    · have hwrap := hok.1
      rw [hinp] at hwrap
      have hzero := h.pending_eq_zero (b := b)
        (show (c.servers act.actor).currentTerm < wrap ((c.servers act.actor).currentTerm + 1) by
          rw [wrap_of_lt (hwrap hl)]; omega)
      have hconsume := pending_consume_le act c.network act.actor b
        (wrap ((c.servers act.actor).currentTerm + 1))
      rw [after_network, pending_append]
      omega
  counted := h.counted_after ht hok
  crowned _ _ _ hev := h.crowned_after ht hok hev

end

end ElectionInv

end

/-! ### Election safety -/

section

variable {cfg : Config σ} {c : Cluster σ}

theorem Reachable.electionInv (h : Reachable cfg Server.FairVote c) : ElectionInv cfg c :=
  h.invariant_after (electionInv_start cfg) fun _ hinv ht hok ↦ hinv.after ht hok

theorem Reachable.bound (h : Reachable cfg Server.FairVote c) (i : ℕ) : (c.servers i).Bound :=
  h.forall_server (bound_start cfg) (fun hb hok hh ↦ (handle_effect hh).bound hok.1 hb) i

/-- At most one server has taken the lead in a term. -/
def ElectionSafe (c : Cluster σ) : Prop :=
  ∀ i j term log log', .elected term log ∈ (c.servers i).history →
    .elected term log' ∈ (c.servers j).history → i = j

theorem ElectionInv.electionSafe (h : ElectionInv cfg c) (hb : ∀ i, (c.servers i).Bound) :
    ElectionSafe c := by
  intro i j term log log' hi hj
  obtain ⟨b, -, hbi, hbj⟩ := (h.crowned i term log hi).exists_and (h.crowned j term log' hj)
  exact (hb b).oneVote _ hbi _ hbj rfl

/-- **Election safety**, for every cluster and every run in which no candidacy wraps the term and
no candidate is given a vote of another term than its own. -/
theorem election_safety (h : Reachable cfg Server.FairVote c) : ElectionSafe c :=
  h.electionInv.electionSafe h.bound

end

/-! ### Two leaders -/

namespace Action

/-- The request of candidate `a` reaches `b`. -/
def asks (a b term lastLogIndex lastLogTerm : ℕ) : Action :=
  ⟨b, askVote a term lastLogIndex lastLogTerm⟩

/-- The vote of `b` reaches `a`. -/
def votes (b a term : ℕ) : Action := ⟨a, .receive b (.voteResponse ⟨term, true⟩)⟩

/-- Server `a` stands and is elected by the given voters. -/
def election (a : ℕ) (voters : List ℕ) (term lastLogIndex lastLogTerm : ℕ) : List Action :=
  ⟨a, .timeout⟩ :: (voters.map fun b ↦ asks a b term lastLogIndex lastLogTerm) ++
    voters.map fun b ↦ votes b a term

/-- A replication request of `a` reaches `b`. -/
def appends (a b : ℕ) (req : AppendEntriesRequest) : Action :=
  ⟨b, .receive a (.appendEntriesRequest req)⟩

/-- The acknowledgement of `b` reaches `a`. -/
def acks (b a term lastLogIndex : ℕ) : Action :=
  ⟨a, .receive b (.appendEntriesResponse ⟨term, lastLogIndex, true⟩)⟩

end Action

/-- An election that all goes well for server 1. -/
theorem electionSafe_of_election :
    ∃ c, Reachable .trio Server.FairVote c ∧ .elected 2 [.empty] ∈ (c.servers 1).history ∧
      ElectionSafe c := by
  obtain ⟨c, hc, hmem⟩ : ∃ c, Reachable .trio Server.FairVote c ∧
      .elected 2 [.empty] ∈ (c.servers 1).history :=
    exists_reach_of_run (election 1 [2, 3] 2 0 0) (by decide)
  exact ⟨c, hc, hmem, election_safety hc⟩

/-- Server 1 stands in term 2 and server 3 in term 3, and both are granted the votes of the other
two. Before these arrive both timers fire, so both are candidates of term 4 when they count them:
**two leaders of term 4, in which nobody voted for either**. -/
theorem two_leaders_of_stale_votes : ∃ c, Reachable .trio anyStep c ∧ ¬ ElectionSafe c := by
  obtain ⟨c, hc, h₁, h₃⟩ : ∃ c, Reachable .trio anyStep c ∧
      .elected 4 [.empty] ∈ (c.servers 1).history ∧ .elected 4 [.empty] ∈ (c.servers 3).history :=
    exists_reach_of_run [⟨1, .timeout⟩, .asks 1 2 2 0 0, .asks 1 3 2 0 0,
        ⟨3, .timeout⟩, .asks 3 1 3 0 0, .asks 3 2 3 0 0,
        ⟨1, .timeout⟩, ⟨3, .timeout⟩,
        .votes 2 1 2, .votes 3 1 2, .votes 1 3 3, .votes 2 3 3] (by decide)
  exact ⟨c, hc, fun h ↦ absurd (h 1 3 4 _ _ h₁ h₃) (by decide)⟩

/-! ### Who replicates -/

namespace Server

/-- Rounds of replication are taken by leaders. -/
def LeaderSends (s : Server σ) : Input → Prop
  | .replicate _ => s.state = .leader
  | _ => True

instance (s : Server σ) : (inp : Input) → Decidable (s.LeaderSends inp)
  | .replicate _ => inferInstanceAs (Decidable (_ = _))
  | .receive .. | .timeout | .command _ | .store _ | .beginLoop _ | .apply | .resume =>
    inferInstanceAs (Decidable True)

/-- Every replication request was sent in a term the server had been elected in. -/
def SendsElected (s : Server σ) : Prop :=
  ∀ peer req earlier, (.replicated peer req :: earlier) <:+ s.history →
    ∃ log, .elected req.term log ∈ earlier

/-- A leader has been elected in its term. -/
def LeadsElected (s : Server σ) : Prop :=
  s.state = .leader → ∃ log, .elected s.currentTerm log ∈ s.history

section

variable {cfg : Config σ} {s s' : Server σ} {inp : Input} {out : List Packet}

theorem Effect.leadsElected (h : Effect cfg s inp s' out) (hl : s.LeadsElected) :
    s'.LeadsElected := by
  have hgrow : ∀ {term}, (∃ log, .elected term log ∈ s.history) →
      ∃ log, .elected term log ∈ s'.history :=
    fun ⟨log, hlog⟩ ↦ ⟨log, h.history_subset hlog⟩
  -- A leader that keeps its role through a change of term keeps the term.
  have hterm : ∀ {term},
      (if s.currentTerm < term then ServerState.follower else s.state) = .leader →
      ∃ log, .elected (max s.currentTerm term) log ∈ s'.history := by
    intro term hstate
    split_ifs at hstate with hlt
    rw [max_eq_left (not_lt.1 hlt)]
    exact hgrow (hl hstate)
  intro hstate
  cases h.election with
  | kept hk =>
    rw [hk.currentTerm]
    exact hgrow (hl (hk.state ▸ hstate))
  | candidacy => cases hstate
  | granted hle =>
    rw [grantVote_adoptTerm_eq hle] at hstate hterm ⊢
    have hlog := hterm hstate
    rwa [max_eq_right hle] at hlog
  | counted => exact hl hstate
  | elected => exact ⟨s.log, mem_cons_self⟩
  | adopted _ hk =>
    rw [hk.state, adoptTerm_eq] at hstate
    rw [hk.currentTerm, adoptTerm_eq]
    exact hterm hstate

theorem Effect.sendsElected (h : Effect cfg s inp s' out) (hok : s.LeaderSends inp)
    (hl : s.LeadsElected) (hs : s.SendsElected) : s'.SendsElected := by
  intro peer req earlier hsuffix
  rcases h.of_suffix_history hsuffix with hold | ⟨⟨rfl, -, entries, rfl⟩, hearlier⟩
  · exact hs peer req earlier hold
  · obtain ⟨log, hlog⟩ := hl hok
    exact ⟨log, hearlier hlog⟩

end

end Server

/-- **Only elected leaders replicate**, in every run in which rounds of replication are taken by
leaders: whenever a server hands a request to the transport, it has been elected in the term the
request carries. -/
theorem replicated_of_elected {cfg : Config σ} {c : Cluster σ}
    (h : Reachable cfg Server.LeaderSends c) (i : ℕ) : (c.servers i).SendsElected := by
  refine (h.forall_server (P := fun _ s ↦ s.LeadsElected ∧ s.SendsElected) ?_ ?_ i).2
  · intro i
    refine ⟨fun hstate ↦ ?_, fun peer req earlier hsuffix ↦ ?_⟩
    · cases hstate
    · exact absurd (hsuffix.subset mem_cons_self) not_mem_nil
  · rintro i s s' inp out ⟨hl, hs⟩ hok hh
    have heffect := handle_effect hh
    exact ⟨heffect.leadsElected hl, heffect.sendsElected hok hl hs⟩

/-- Server 1 is elected and replicates. -/
theorem sendsElected_of_election : ∃ c, Reachable .trio Server.LeaderSends c ∧
      (∃ req, .replicated 2 req ∈ (c.servers 1).history) ∧ (c.servers 1).SendsElected := by
  obtain ⟨c, hc, hmem⟩ : ∃ c, Reachable .trio Server.LeaderSends c ∧
      .replicated 2 ⟨2, 1, 0, 0, 0, []⟩ ∈ (c.servers 1).history :=
    exists_reach_of_run
      (election 1 [2, 3] 2 0 0 ++ [⟨1, .beginLoop 2⟩, ⟨1, .replicate 2⟩]) (by decide)
  exact ⟨c, hc, ⟨_, hmem⟩, replicated_of_elected hc 1⟩

/-- Server 1 is elected in term 2, and steps down when server 3 asks for its vote in term 3. Its
replication worker goes on, **in a term that server 1 was never elected in**. -/
theorem replicated_by_follower : ∃ c, Reachable .trio anyStep c ∧ ¬ (c.servers 1).SendsElected := by
  obtain ⟨c, hc, hhist⟩ : ∃ c, Reachable .trio anyStep c ∧
      (c.servers 1).history = [.replicated 2 ⟨3, 1, 0, 0, 0, []⟩, .voted 3 3 [.empty],
        .elected 2 [.empty], .candidacy 2 [.empty]] :=
    exists_reach_of_run (election 1 [2, 3] 2 0 0 ++
        [⟨1, .beginLoop 2⟩, ⟨3, .timeout⟩, .asks 3 1 3 0 0, ⟨1, .replicate 2⟩]) (by decide)
  refine ⟨c, hc, fun h ↦ ?_⟩
  rw [Server.SendsElected, hhist] at h
  obtain ⟨log, hlog⟩ := h 2 _ _ (suffix_refl _)
  simp at hlog

end Xzero.Raft
