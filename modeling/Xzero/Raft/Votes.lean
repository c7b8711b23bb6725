import Xzero.Library.Transition
import Xzero.Raft.Events

/-!
# One vote per term

A single server, whoever it talks to. What it is bound to in a term is its *ballot*: the candidate
it granted its vote, or itself if it stood. The stored vote pins the ballots of the current term —
a newer term is what clears it — and **as long as the term does not decrease, no ballot of an older
term can still be cast** (`one_vote_per_term`). The term decreases in one place only, where
`currentTerm() + 1` wraps around.

The proofs see an input through `ElectionEffect`, which forgets everything but the term, the vote,
the role and the vote count. Most inputs leave these alone (`ElectionKept`).
-/

namespace Xzero.Raft

open List TransitionSystem Event Message

variable {σ : Type}

/-! ### What an input means for elections -/

def Event.isElection : Event → Bool
  | .candidacy .. | .voted .. | .elected .. => true
  | _ => false

/-- The messages an election is decided by: requests for votes, and votes. -/
def Message.isVote : Message → Bool
  | .voteRequest _ => true
  | .voteResponse resp => resp.voteGranted
  | _ => false

namespace Server

/-- Nothing has happened that matters to an election. -/
structure ElectionKept (s s' : Server σ) : Prop where
  id : s'.id = s.id
  currentTerm : s'.currentTerm = s.currentTerm
  votedFor : s'.votedFor = s.votedFor
  state : s'.state = s.state
  votesGranted : s'.votesGranted = s.votesGranted
  history : ∃ new, s'.history = new ++ s.history ∧ ∀ ev ∈ new, ev.isElection = false

/-- An input, as far as elections go. -/
inductive ElectionEffect (cfg : Config σ) (s : Server σ) :
    Input → Server σ → List Packet → Prop
  | kept {inp : Input} {s' : Server σ} {out : List Packet} : ElectionKept s s' →
      (∀ p ∈ out, p.msg.isVote = false) → ElectionEffect cfg s inp s' out
  | candidacy : s.state ≠ .leader →
      ElectionEffect cfg s .timeout (sendVoteRequest cfg { s with state := .candidate }).1
        (sendVoteRequest cfg { s with state := .candidate }).2
  | granted {src : ℕ} {req : VoteRequest} : s.currentTerm ≤ req.term → s.Grants req →
      ElectionEffect cfg s (.receive src (.voteRequest req))
        ((s.adoptTerm req.candidateId req.term).grantVote req).1
        [⟨s.id, src, .voteResponse ⟨req.term, true⟩⟩]
  | counted {src : ℕ} {resp : VoteResponse} : s.state ≠ .leader → resp.voteGranted = true →
      ElectionEffect cfg s (.receive src (.voteResponse resp))
        { s with votesGranted := s.votesGranted + 1 } []
  /-- It counts the vote that completes a quorum. -/
  | elected {src : ℕ} {resp : VoteResponse} : s.state = .candidate → resp.voteGranted = true →
      cfg.quorum ≤ s.votesGranted + 1 →
      ElectionEffect cfg s (.receive src (.voteResponse resp))
        (setupLeader cfg { s with votesGranted := s.votesGranted + 1 }) []
  /-- It adopts the term of a replication request. -/
  | adopted {src : ℕ} {req : AppendEntriesRequest} {s' : Server σ} {out : List Packet} :
      s.Accepts req → ElectionKept (s.adoptTerm req.leaderId req.term) s' →
      (∀ p ∈ out, p.msg.isVote = false) →
      ElectionEffect cfg s (.receive src (.appendEntriesRequest req)) s' out

section

variable {cfg : Config σ} {s s' : Server σ} {inp : Input} {out : List Packet}

theorem electionKept_acceptEntries (s : Server σ) (req : AppendEntriesRequest) :
    ElectionKept (s.adoptTerm req.leaderId req.term) (s.acceptEntries req) := by
  rw [acceptEntries_eq, adoptTerm_eq]
  exact ⟨rfl, rfl, rfl, rfl, rfl, [], rfl, by simp⟩

theorem ElectionKept.trans {s₁ : Server σ} (h : ElectionKept s s₁) (h' : ElectionKept s₁ s') :
    ElectionKept s s' := by
  obtain ⟨new, hnew, hquiet⟩ := h.history
  obtain ⟨new', hnew', hquiet'⟩ := h'.history
  refine ⟨h'.id.trans h.id, h'.currentTerm.trans h.currentTerm, h'.votedFor.trans h.votedFor,
    h'.state.trans h.state, h'.votesGranted.trans h.votesGranted, new' ++ new, ?_,
    forall_mem_append.2 ⟨hquiet', hquiet⟩⟩
  rw [hnew', hnew, append_assoc]

theorem isElection_of_isApply {ev : Event} (h : ev.IsApply) : ev.isElection = false := by
  cases ev <;> first | rfl | exact h.elim

/-- **Every input is one of these.** -/
theorem Effect.election (h : Effect cfg s inp s' out) : ElectionEffect cfg s inp s' out := by
  cases h with
  | candidacy hl => exact .candidacy hl
  | voteGranted hle hg => exact .granted hle hg
  | voteCounted hl hg => exact .counted hl hg
  | elected hc hg hq => exact .elected hc hg hq
  | appendAborted hacc =>
    exact .adopted hacc ((electionKept_acceptEntries s _).trans
      ⟨rfl, rfl, rfl, rfl, rfl, [], rfl, by simp⟩) (by simp)
  | appendCommitted hacc =>
    exact .adopted hacc ((electionKept_acceptEntries s _).trans
      ⟨rfl, rfl, rfl, rfl, rfl, [_], rfl, by simp [isElection]⟩) (by simp)
  | appendStored hacc =>
    exact .adopted hacc (electionKept_acceptEntries s _) (by simp [isVote])
  | commandRejected | commandStored =>
    exact .kept ⟨rfl, rfl, rfl, rfl, rfl, [_, _], rfl, by simp [isElection]⟩ (by simp)
  | responseCommitted | commandDelayed | stored | heartbeat | replicated =>
    exact .kept ⟨rfl, rfl, rfl, rfl, rfl, [_], rfl, by simp [isElection]⟩
      (by simp [sendEntries, isVote])
  | applied =>
    obtain ⟨m, p, w, l, new, heq, hnew⟩ := applyLogs_eq cfg s
    rw [heq]
    exact .kept ⟨rfl, rfl, rfl, rfl, rfl, new, rfl,
      fun ev hev ↦ isElection_of_isApply (hnew ev hev)⟩ (by simp)
  | _ => exact .kept ⟨rfl, rfl, rfl, rfl, rfl, [], rfl, by simp⟩ (by simp [isVote])

theorem Effect.id_eq (h : Effect cfg s inp s' out) : s'.id = s.id := by
  cases h.election with
  | kept hk => exact hk.id
  | candidacy | counted | elected => rfl
  | granted hle => rw [grantVote_adoptTerm_eq hle]
  | adopted _ hk =>
    rw [hk.id, adoptTerm_eq]

end

end Server

/-! ### Ballots -/

/-- The candidate an event binds a server to, and the term it does so in. -/
def Event.ballot (self : ℕ) : Event → Option (ℕ × ℕ)
  | .candidacy term _ => some (term, self)
  | .voted term candidate _ => some (term, candidate)
  | _ => none

theorem Event.ballot_eq_none {self : ℕ} {ev : Event} (h : ev.isElection = false) :
    ev.ballot self = none := by
  cases ev <;> first | rfl | cases h

namespace Server

/-- The votes a server has granted and its own candidacies. -/
def ballots (s : Server σ) : List (ℕ × ℕ) := s.history.filterMap (ballot s.id)

/-- All ballots of a term name one candidate. -/
def OneVote (s : Server σ) : Prop := ∀ p ∈ s.ballots, ∀ q ∈ s.ballots, p.1 = q.1 → p.2 = q.2

instance (s : Server σ) : Decidable s.OneVote := inferInstanceAs (Decidable (∀ _ ∈ _, _))

/-- The timer of a server that does not lead finds a term that can be incremented. -/
def NoWrap (s : Server σ) : Input → Prop
  | .timeout => s.state ≠ .leader → s.currentTerm + 1 < wordSize
  | _ => True

instance (s : Server σ) : (inp : Input) → Decidable (s.NoWrap inp)
  | .timeout => inferInstanceAs (Decidable (_ → _))
  | .receive .. | .command _ | .store _ | .beginLoop _ | .replicate _ | .apply | .resume =>
    inferInstanceAs (Decidable True)

section

variable {cfg : Config σ} {s s' : Server σ} {inp : Input} {out : List Packet}

theorem ElectionKept.ballots_eq (h : ElectionKept s s') : s'.ballots = s.ballots := by
  obtain ⟨new, hhist, hnew⟩ := h.history
  have hnil : new.filterMap (ballot s.id) = [] :=
    filterMap_eq_nil_iff.2 fun ev hev ↦ ballot_eq_none (hnew ev hev)
  rw [ballots, h.id, hhist, filterMap_append, hnil, nil_append, ballots]

theorem Effect.ballots_subset (h : Effect cfg s inp s' out) : s.ballots ⊆ s'.ballots := by
  obtain ⟨new, hnew, -⟩ := h.arises
  rw [ballots, ballots, h.id_eq, hnew, filterMap_append]
  exact subset_append_right _ _

/-- The ballots a server is bound to: none is of a later term, those of the current term are
pinned by the stored vote, and no two differ. -/
structure Bound (s : Server σ) : Prop where
  /-- Ballots are of terms that have been reached. -/
  le : ∀ p ∈ s.ballots, p.1 ≤ s.currentTerm
  /-- A ballot of the current term is the stored vote. -/
  votedFor : ∀ p ∈ s.ballots, p.1 = s.currentTerm → ∃ t, s.votedFor = some (p.2, t)
  oneVote : s.OneVote

theorem bound_start (cfg : Config σ) (id : ℕ) : Bound (new cfg id).start :=
  ⟨by simp [ballots, start, new], by simp [ballots, start, new],
    by simp [OneVote, ballots, start, new]⟩

theorem Bound.of_kept (hb : Bound s) (h : ElectionKept s s') : Bound s' := by
  have hballots := h.ballots_eq
  refine ⟨?_, ?_, ?_⟩
  · rw [hballots, h.currentTerm]
    exact hb.le
  · rw [hballots, h.currentTerm, h.votedFor]
    exact hb.votedFor
  · rw [OneVote, hballots]
    exact hb.oneVote

theorem Bound.of_newer (hb : Bound s) (hballots : s'.ballots = s.ballots)
    (hlt : s.currentTerm < s'.currentTerm) : Bound s' := by
  refine ⟨?_, ?_, ?_⟩
  · intro p hp
    have hle := hb.le p (hballots ▸ hp)
    omega
  · intro p hp heq
    have hle := hb.le p (hballots ▸ hp)
    omega
  · rw [OneVote, hballots]
    exact hb.oneVote

theorem Bound.cast (hb : Bound s) (cand t : ℕ)
    (hballots : s'.ballots = (s'.currentTerm, cand) :: s.ballots)
    (hvote : s'.votedFor = some (cand, t))
    (hterm : s.currentTerm < s'.currentTerm ∨
      s.currentTerm = s'.currentTerm ∧ ∀ v ∈ s.votedFor, v.1 = cand) : Bound s' := by
  -- A ballot of the new term that was cast before names the same candidate.
  have hsame : ∀ p ∈ s.ballots, p.1 = s'.currentTerm → p.2 = cand := by
    intro p hp heq
    have hle := hb.le p hp
    rcases hterm with hlt | ⟨hcur, hv⟩
    · omega
    · obtain ⟨t', hvp⟩ := hb.votedFor p hp (by omega)
      exact hv (p.2, t') (by simp [hvp])
  refine ⟨?_, ?_, ?_⟩
  · rw [hballots]
    intro p hp
    rcases mem_cons.1 hp with rfl | hp
    · exact le_refl _
    · have hle := hb.le p hp
      omega
  · rw [hballots]
    intro p hp heq
    rcases mem_cons.1 hp with rfl | hp
    · exact ⟨t, hvote⟩
    · exact ⟨t, by rw [hvote, hsame p hp heq]⟩
  · rw [OneVote, hballots]
    intro p hp q hq heq
    rcases mem_cons.1 hp with rfl | hp <;> rcases mem_cons.1 hq with rfl | hq
    · rfl
    · exact (hsame q hq heq.symm).symm
    · exact hsame p hp heq
    · exact hb.oneVote p hp q hq heq

theorem Bound.adoptTerm (hb : Bound s) (leaderId term : ℕ) : Bound (s.adoptTerm leaderId term) := by
  rcases lt_or_ge s.currentTerm term with hlt | hle
  · rw [adoptTerm_of_lt hlt]
    exact hb.of_newer rfl hlt
  · rwa [adoptTerm_of_le hle]

/-- **No input releases a server from its ballots**, unless the term wraps. -/
theorem Effect.bound (h : Effect cfg s inp s' out) (hok : s.NoWrap inp) (hb : Bound s) :
    Bound s' := by
  cases h.election with
  | kept hk => exact hb.of_kept hk
  | candidacy hl =>
    have hterm : wrap (s.currentTerm + 1) = s.currentTerm + 1 := wrap_of_lt (hok hl)
    refine hb.cast s.id (wrap (s.currentTerm + 1)) rfl rfl (.inl ?_)
    show s.currentTerm < wrap (s.currentTerm + 1)
    omega
  | @granted src req hle hg =>
    rw [grantVote_adoptTerm_eq hle]
    refine hb.cast req.candidateId req.lastLogTerm rfl rfl ?_
    rcases hg with hlt | ⟨heq, hv⟩
    · exact .inl hlt
    · exact .inr ⟨heq, fun v hv' ↦ (hv v hv').1.symm⟩
  | counted | elected => exact ⟨hb.le, hb.votedFor, hb.oneVote⟩
  | adopted _ hk => exact (hb.adoptTerm _ _).of_kept hk

theorem Effect.currentTerm_le (h : Effect cfg s inp s' out) (hok : s.NoWrap inp) :
    s.currentTerm ≤ s'.currentTerm := by
  cases h.election with
  | kept hk => exact le_of_eq hk.currentTerm.symm
  | candidacy hl =>
    show s.currentTerm ≤ wrap (s.currentTerm + 1)
    rw [wrap_of_lt (hok hl)]
    exact Nat.le_succ _
  | granted hle hg =>
    rw [grantVote_adoptTerm_eq hle]
    exact hle
  | counted | elected => exact le_refl _
  | adopted _ hk =>
    rw [hk.currentTerm, adoptTerm_eq]
    exact le_max_left _ _

end

/-- A started server that is left to whoever talks to it. -/
def system (cfg : Config σ) (id : ℕ) : TransitionSystem (Server σ) Input where
  init := (new cfg id).start
  step s inp := (s.handle cfg inp).map Prod.fst

theorem system_step_eq_some_iff {cfg : Config σ} {id : ℕ} {s s' : Server σ} {inp : Input} :
    (system cfg id).step s inp = some s' ↔ ∃ out, s.handle cfg inp = some (s', out) := by
  rw [system, Option.map_eq_some_iff]
  exact ⟨fun ⟨r, h, heq⟩ ↦ ⟨r.2, heq ▸ h⟩, fun ⟨out, h⟩ ↦ ⟨(s', out), h, rfl⟩⟩

/-- **One vote per term.** For every server and every sequence of inputs, whatever the messages
contain: if no candidacy wraps the term, all ballots of a term name one candidate, and no input
lowers the term. -/
theorem one_vote_per_term {cfg : Config σ} {id : ℕ} {s : Server σ}
    (h : (system cfg id).Reach NoWrap s) :
    s.OneVote ∧ ∀ inp s', s.NoWrap inp → (system cfg id).step s inp = some s' →
      s.currentTerm ≤ s'.currentTerm := by
  have hb : Bound s := by
    refine h.invariant (bound_start cfg id) ?_
    intro s s' inp _ hb hok hst
    obtain ⟨out, hh⟩ := system_step_eq_some_iff.1 hst
    exact (handle_effect hh).bound hok hb
  refine ⟨hb.oneVote, fun inp s' hok hst ↦ ?_⟩
  obtain ⟨out, hh⟩ := system_step_eq_some_iff.1 hst
  exact (handle_effect hh).currentTerm_le hok

def askVote (candidate term lastLogIndex lastLogTerm : ℕ) : Input :=
  .receive candidate (.voteRequest ⟨term, candidate, lastLogIndex, lastLogTerm⟩)

/-- Server 1 votes for 2 in term 1, refuses 3, and stands in term 2. -/
theorem oneVote_of_candidacy :
    ∃ s, (system .trio 1).Reach NoWrap s ∧ s.ballots = [(2, 1), (1, 2)] ∧ s.OneVote := by
  obtain ⟨s, hs, hballots⟩ : ∃ s, (system .trio 1).Reach NoWrap s ∧ s.ballots = [(2, 1), (1, 2)] :=
    exists_reach_of_run [askVote 2 1 0 0, askVote 3 1 0 0, .timeout] (by decide)
  exact ⟨s, hs, hballots, (one_vote_per_term hs).1⟩

/-- Server 1 votes for 2 in term 1, is asked for a vote in the last term there is, and stands: its
term is now 0, so it votes in term 1 again, for 3. -/
theorem not_oneVote_of_wrap : (∃ s, (system .trio 1).Reach (fun _ _ ↦ True) s ∧
      ∃ s' ∈ (system .trio 1).step s .timeout, s'.currentTerm < s.currentTerm) ∧
    ∃ s, (system .trio 1).Reach (fun _ _ ↦ True) s ∧ ¬ s.OneVote :=
  ⟨exists_reach_of_run [askVote 2 (wordSize - 1) 0 0] (by decide), exists_reach_of_run
      [askVote 2 1 0 0, askVote 2 (wordSize - 1) 0 0, .timeout, askVote 3 1 0 0] (by decide)⟩

end Server

end Xzero.Raft
