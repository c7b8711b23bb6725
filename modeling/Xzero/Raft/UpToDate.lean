import Xzero.Raft.LogMatching

/-!
# Candidates that are up to date

The protocol lets a server vote only for a candidate whose log is not older than its own: by the
term of the last entry, then by length (`NotNewer`). **The code sends what this needs and does not
compare it**: `VoteRequest` carries the candidate's last index and term, and the handler looks at
neither, other than to let the same candidate ask twice. `UpToDateVote` is the comparison as a
condition on the step.

Under it every vote is backed by a candidacy with a log that is not older than the voter's
(`CandidacyInv.voted`).
-/

namespace Xzero.Raft

open List MemoryStore Cluster

variable {σ : Type}

/-! ### Comparing logs -/

def lastTerm (log : List LogEntry) : ℕ := log.getLast?.elim 0 LogEntry.term

/-- The first log is not newer than the second. -/
def NotNewer (log log' : List LogEntry) : Prop :=
  lastTerm log < lastTerm log' ∨ lastTerm log = lastTerm log' ∧ log.length ≤ log'.length

/-- Terms do not decrease along the log. -/
def Ascending (log : List LogEntry) : Prop := log.Pairwise fun e e' ↦ e.term ≤ e'.term

section

variable {log log' : List LogEntry} {e : LogEntry}

theorem lastTerm_concat (log : List LogEntry) (e : LogEntry) : lastTerm (log ++ [e]) = e.term := by
  simp [lastTerm]

theorem exists_lastTerm (hne : log ≠ []) :
    ∃ e, log[log.length - 1]? = some e ∧ lastTerm log = e.term := by
  refine ⟨log.getLast hne, ?_, ?_⟩
  · rw [← getLast?_eq_getElem?, getLast?_eq_some_getLast hne]
  · rw [lastTerm, getLast?_eq_some_getLast hne]
    rfl

theorem Ascending.of_isPrefix (h : Ascending log') (hle : log <+: log') : Ascending log :=
  h.sublist hle.sublist

theorem Ascending.le_lastTerm (h : Ascending log) (he : e ∈ log) : e.term ≤ lastTerm log := by
  rcases eq_nil_or_concat' log with rfl | ⟨l, last, rfl⟩
  · cases he
  · rw [lastTerm_concat]
    rcases mem_append.1 he with he | he
    · exact (pairwise_append.1 h).2.2 e he last (mem_singleton_self last)
    · rw [mem_singleton.1 he]

theorem Ascending.concat (h : Ascending log) (he : lastTerm log ≤ e.term) :
    Ascending (log ++ [e]) := by
  refine pairwise_append.2 ⟨h, pairwise_singleton _ _, fun e' he' last hlast ↦ ?_⟩
  rw [mem_singleton.1 hlast]
  exact le_trans (h.le_lastTerm he') he

theorem MemoryStore.getLogTerm_latestIndex {st : MemoryStore} (hne : st.log ≠ []) :
    st.getLogTerm st.latestIndex = lastTerm st.log := by
  rw [getLogTerm_eq hne, latestIndex_eq hne, lastTerm, getLast?_eq_getElem?]

end

namespace Server

/-- A vote is granted to a candidate whose log is not older than the voter's. -/
def UpToDateVote (s : Server σ) : Input → Prop
  | .receive _ (.voteRequest req) => s.Grants req →
    s.getLogTerm s.latestIndex < req.lastLogTerm ∨
      s.getLogTerm s.latestIndex = req.lastLogTerm ∧ s.latestIndex ≤ req.lastLogIndex
  | _ => True

instance (s : Server σ) : (inp : Input) → Decidable (s.UpToDateVote inp)
  | .receive _ (.voteRequest _) => inferInstanceAs (Decidable (_ → _))
  | .receive _ (.voteResponse _) | .receive _ (.appendEntriesRequest _)
  | .receive _ (.appendEntriesResponse _) | .timeout | .command _ | .store _ | .beginLoop _
  | .replicate _ | .apply | .resume => inferInstanceAs (Decidable True)

/-- The store's executor does not append an entry after one of a later term. -/
def OrderedStore (s : Server σ) : Input → Prop
  | .store k => ∀ task ∈ s.storeTasks[k]?, s.getLogTerm s.latestIndex ≤ task.1.term
  | _ => True

instance (s : Server σ) : (inp : Input) → Decidable (s.OrderedStore inp)
  | .store _ => inferInstanceAs (Decidable (∀ _ ∈ _, _))
  | .receive .. | .timeout | .command _ | .beginLoop _ | .replicate _ | .apply | .resume =>
    inferInstanceAs (Decidable True)

/-- Elections are fair and won by candidates that are up to date, and logs only grow, in order. -/
def UpToDate (s : Server σ) (inp : Input) : Prop :=
  s.FairVote inp ∧ s.AppendOnly inp ∧ s.UpToDateVote inp ∧ s.OrderedStore inp

/-! ### A server's candidacies -/

/-- What a server's candidacies and elections say about its log. -/
structure Candidacies (s : Server σ) : Prop where
  /-- Elections were won in terms that have been reached. -/
  reached : ∀ term log, .elected term log ∈ s.history → term ≤ s.currentTerm
  /-- A candidate's log is older than its candidacy. -/
  young : ∀ term log, .candidacy term log ∈ s.history → ∀ e ∈ log, e.term < term
  /-- An election is won with the log of the candidacy, or more. -/
  won : ∀ term log log', .elected term log ∈ s.history → .candidacy term log' ∈ s.history →
    log' <+: log

section

variable {cfg : Config σ} {s s' : Server σ} {inp : Input} {out : List Packet}

theorem LogInv.term_le (h : LogInv s) {e : LogEntry} (he : e ∈ s.log) : e.term ≤ s.currentTerm := by
  obtain ⟨k, hk⟩ := mem_iff_getElem?.1 he
  rcases Nat.eq_zero_or_pos k with rfl | hpos
  · obtain rfl : .empty = e := Option.some.inj (h.head.symm.trans hk)
    exact Nat.zero_le _
  · exact (h.term hpos hk).2

theorem candidacies_start (cfg : Config σ) (id : ℕ) : Candidacies (new cfg id).start where
  reached _ _ h := absurd h not_mem_nil
  young _ _ h := absurd h not_mem_nil
  won _ _ _ h := absurd h not_mem_nil

theorem Effect.candidacies (h : Effect cfg s inp s' out) (hok : s.NoWrap inp) (hlog : s.LogInv)
    (hs : s.Snapshots) (hc : s.Candidacies) : s'.Candidacies := by
  -- A new candidacy is of the term after the current one.
  have hnew : ∀ {term log}, Arises cfg s inp s' (.candidacy term log) →
      term = s.currentTerm + 1 ∧ log = s.log := by
    rintro term log ⟨rfl, hl, rfl, rfl⟩
    exact ⟨wrap_of_lt (hok hl), rfl⟩
  refine ⟨fun term log hev ↦ ?_, fun term log hev ↦ ?_, fun term log log' hev hev' ↦ ?_⟩
  · have hterm := h.currentTerm_le hok
    rcases h.of_mem_history hev with hold | ⟨src, resp, -, -, -, -, rfl, -⟩
    · exact le_trans (hc.reached term log hold) hterm
    · exact hterm
  · rcases h.of_mem_history hev with hold | harises
    · exact hc.young term log hold
    · obtain ⟨rfl, rfl⟩ := hnew harises
      exact fun e he ↦ Nat.lt_succ_of_le (hlog.term_le he)
  · rcases h.of_mem_history hev with hold | ⟨src, resp, rfl, -, -, -, -, rfl⟩
    · rcases h.of_mem_history hev' with hold' | harises
      · exact hc.won term log log' hold hold'
      · have hle := hc.reached term log hold
        have hterm := (hnew harises).1
        omega
    · rcases h.of_mem_history hev' with hold' | ⟨heq, -⟩
      · exact (hs _ hold' log' rfl).2
      · cases heq

end

end Server

/-! ### Votes for up-to-date candidates -/

/-- What stands behind a vote. -/
structure CandidacyInv (c : Cluster σ) : Prop where
  candidacies : ∀ i, (c.servers i).Candidacies
  ascending : ∀ i, Ascending (c.servers i).log
  /-- A request for a vote describes the log of a candidacy. -/
  request : ∀ p ∈ c.network, ∀ req, p.msg = .voteRequest req →
    ∃ log, .candidacy req.term log ∈ (c.servers p.src).history ∧ lastTerm log = req.lastLogTerm ∧
      log.length = req.lastLogIndex + 1
  /-- A vote is for a candidacy whose log is not older. -/
  voted : ∀ i term candidate log, .voted term candidate log ∈ (c.servers i).history →
    ∃ log', .candidacy term log' ∈ (c.servers candidate).history ∧ NotNewer log log'

section

variable {cfg : Config σ} {c : Cluster σ} {s' : Server σ} {act : Action} {out : List Packet}

theorem candidacyInv_start (cfg : Config σ) : CandidacyInv (.start cfg) where
  candidacies := Server.candidacies_start cfg
  ascending _ := pairwise_singleton _ _
  request _ hp := absurd hp not_mem_nil
  voted _ _ _ _ h := absurd h not_mem_nil

namespace CandidacyInv

theorem ascending_after (h : CandidacyInv c) (hinv : AppendInv cfg c) (hsafe : ElectionSafe c)
    (horigin : Origin c) (ht : c.Takes cfg act s' out)
    (hok : (c.servers act.actor).UpToDate act.input) : Ascending s'.log := by
  have hne := (hinv.log act.actor).log_ne_nil
  have hold := h.ascending act.actor
  obtain ⟨-, happend, -, hordered⟩ := hok
  rcases ht.effect.log_cases with
    heq | ⟨src, req, hinp, hacc, heq⟩ |
      ⟨ticket, entry, -, heq, ⟨cmd, -, -, -, rfl⟩ | ⟨k, hinp, htask⟩⟩
  · rwa [heq]
  · have hno := happend.2
    rw [hinp] at hno
    rw [heq]
    rcases hinv.stored_cases hsafe horigin (hinv.delivered ht hinp).readFrom hacc (hno hacc) with
      hsame | hcopy
    · rwa [hsame]
    · exact (h.ascending src).of_isPrefix hcopy
  · rw [heq]
    obtain ⟨e, he, hlast⟩ := exists_lastTerm hne
    refine hold.concat ?_
    rw [hlast]
    exact (hinv.log _).term_le (mem_of_getElem? he)
  · rw [hinp] at hordered
    have hlast := hordered _ htask
    rw [getLogTerm_latestIndex hne] at hlast
    rw [heq]
    exact hold.concat hlast

theorem voted_after (h : CandidacyInv c) (hel : ElectionInv cfg c) (hinv : AppendInv cfg c)
    (ht : c.Takes cfg act s' out) (hok : (c.servers act.actor).UpToDateVote act.input)
    {src : ℕ} {req : VoteRequest} (hinp : act.input = .receive src (.voteRequest req))
    (hgrants : (c.servers act.actor).Grants req) :
    ∃ log', .candidacy req.term log' ∈ (c.servers req.candidateId).history ∧
      NotNewer (c.servers act.actor).log log' := by
  have hmem : (⟨src, act.actor, .voteRequest req⟩ : Packet) ∈ c.network :=
    ht.deliver _ (by rw [Action.packet, hinp]; rfl)
  have hcand : req.candidateId = src := (hel.request _ hmem req rfl).1
  obtain ⟨log', hcandidacy, hterm, hlen⟩ := h.request _ hmem req rfl
  have hne := (hinv.log act.actor).log_ne_nil
  have hpos := (hinv.log act.actor).length_pos
  rw [hinp] at hok
  have hvote := hok hgrants
  rw [getLogTerm_latestIndex hne, ← hterm, latestIndex_eq hne] at hvote
  rw [hcand]
  refine ⟨log', hcandidacy, ?_⟩
  rcases hvote with hlt | ⟨heq, hle⟩
  · exact .inl hlt
  · exact .inr ⟨heq, by omega⟩

theorem after (h : CandidacyInv c) (hel : ElectionInv cfg c) (hinv : AppendInv cfg c)
    (hsafe : ElectionSafe c) (horigin : Origin c) (ht : c.Takes cfg act s' out)
    (hok : (c.servers act.actor).UpToDate act.input) : CandidacyInv (c.after act s' out) where
  candidacies j := forall_after (fun _ hc ↦ hc) (ht.effect.candidacies hok.1.1 (hinv.log _) (hinv.snapshots _)) j
    (h.candidacies j)
  ascending j := after_cases (h.ascending_after hinv hsafe horigin ht hok) h.ascending j
  request p hp req hmsg := by
    rcases mem_append.1 hp with hp | hp
    · obtain ⟨log, hcandidacy, hlast⟩ := h.request p (Action.mem_of_mem_consume hp) req hmsg
      exact ⟨log, ht.history_subset p.src hcandidacy, hlast⟩
    · obtain ⟨hsrc, -, -, hcandidacy, hindex, hterm⟩ := ht.effect.request_of_mem_out hp hmsg
      have hlog := hinv.log act.actor
      have hpos := hlog.length_pos
      rw [hel.id] at hsrc
      rw [latestIndex_eq hlog.log_ne_nil] at hindex
      rw [getLogTerm_latestIndex hlog.log_ne_nil] at hterm
      rw [hsrc, after_servers_self]
      exact ⟨_, hcandidacy, hterm.symm, by omega⟩
  voted j term candidate log hev := by
    have hkeep : ∀ {term candidate log}, (∃ log', .candidacy term log' ∈
          (c.servers candidate).history ∧ NotNewer log log') →
        ∃ log', .candidacy term log' ∈ ((c.after act s' out).servers candidate).history ∧
          NotNewer log log' :=
      fun ⟨log', hcandidacy, hle⟩ ↦ ⟨log', ht.history_subset _ hcandidacy, hle⟩
    rcases ht.of_mem_history hev with hold | ⟨rfl, src, req, hinp, hgrants, rfl, rfl, rfl⟩
    · exact hkeep (h.voted j term candidate log hold)
    · exact hkeep (h.voted_after hel hinv ht hok.2.2.1 hinp hgrants)

end CandidacyInv

theorem Reachable.candidacyInv (h : Reachable cfg Server.UpToDate c) : CandidacyInv c := by
  refine h.invariant_after (candidacyInv_start cfg) ?_
  intro c act s' out hr hinv ht hok
  have hfair : Reachable cfg Server.FairVote c := hr.mono fun _ _ hok ↦ hok.1
  have happend : Reachable cfg Server.AppendOnly c := hr.mono fun _ _ hok ↦ hok.2.1
  have hsafe := hfair.electionInv.electionSafe hfair.bound
  exact hinv.after hfair.electionInv happend.appendInv hsafe (happend.origin hsafe) ht hok

end

end Xzero.Raft
