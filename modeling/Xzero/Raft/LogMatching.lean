import Xzero.Raft.Replication

/-!
# Log matching

If two logs hold entries of one term at one index, they are the same up to there (`log_matching`),
in every run in which no accepted request truncates a log, terms do not wrap, and no term has two
leaders.

Every entry was made by one server, at the end of its own log (`Origin`), and that server had been
elected in the entry's term; so entries of one term come from one server, whose log only grows, and
**both logs are copies of the same prefix of it**.

Truncation is what breaks this. `truncateLog(index - 1)` keeps `index - 1` entries, not `index`, so
the entries that follow a conflict are stored one index too low (`shifted_by_truncation`).
-/

namespace Xzero.Raft

open List MemoryStore TransitionSystem Cluster

variable {σ : Type}

/-- Where two logs hold entries of one term, they agree. -/
def LogMatching (c : Cluster σ) : Prop :=
  ∀ (i j k : ℕ) (e e' : LogEntry), (c.servers i).log[k]? = some e →
    (c.servers j).log[k]? = some e' → e.term = e'.term →
    ∀ m ≤ k, (c.servers i).log[m]? = (c.servers j).log[m]?

/-! ### What an event says about the log -/

/-- The log an event was recorded with, or, for an append, left behind. -/
def Event.snapshot : Event → Option (List LogEntry)
  | .candidacy _ log | .voted _ _ log | .elected _ log | .committed _ _ _ log => some log
  | .created _ before entry => some (before ++ [entry])
  | _ => none

namespace Server

/-- What was the log once, and held at least the placeholder, is a prefix of it. -/
def Snapshots (s : Server σ) : Prop :=
  ∀ ev ∈ s.history, ∀ log ∈ ev.snapshot, log ≠ [] ∧ log <+: s.log

/-- Appends are made, and were handed to the executor, in terms the server was elected in. -/
structure Appends (s : Server σ) : Prop where
  leads : s.LeadsElected
  task : ∀ task ∈ s.storeTasks, ∃ log, .elected task.1.term log ∈ s.history
  created : ∀ ticket before entry, .created ticket before entry ∈ s.history →
    ∃ log, .elected entry.term log ∈ s.history ∧ log <+: before

section

variable {cfg : Config σ} {s s' : Server σ} {inp : Input} {out : List Packet}

theorem Effect.snapshots (h : Effect cfg s inp s' out) (hne : s.log ≠ [])
    (hgrow : s.log <+: s'.log) (hs : s.Snapshots) : s'.Snapshots := by
  have hne' : s'.log ≠ [] := IsPrefix.ne_nil hgrow hne
  intro ev hev log hlog
  rcases h.of_mem_history hev with hold | harises
  · exact ⟨(hs ev hold log hlog).1, (hs ev hold log hlog).2.trans hgrow⟩
  · cases ev with
    | candidacy term l =>
      cases hlog
      obtain ⟨-, -, -, rfl⟩ := harises
      exact ⟨hne, hgrow⟩
    | voted term cand l =>
      cases hlog
      obtain ⟨src, req, -, -, -, -, rfl⟩ := harises
      exact ⟨hne, hgrow⟩
    | elected term l =>
      cases hlog
      obtain ⟨src, resp, -, -, -, -, -, rfl⟩ := harises
      exact ⟨hne, hgrow⟩
    | committed role term index l =>
      cases hlog
      obtain ⟨-, -, -, rfl, -⟩ := harises
      exact ⟨hne', prefix_refl _⟩
    | created ticket before entry =>
      cases hlog
      obtain ⟨rfl, heq, -⟩ := harises
      exact ⟨by simp, heq ▸ prefix_refl _⟩
    | _ => cases hlog

theorem Effect.appends (h : Effect cfg s inp s' out) (hs : s.Snapshots) (ha : s.Appends) :
    s'.Appends := by
  have hgrow : ∀ {term}, (∃ log, .elected term log ∈ s.history) →
      ∃ log, .elected term log ∈ s'.history :=
    fun ⟨log, hlog⟩ ↦ ⟨log, h.history_subset hlog⟩
  -- The log of the election is a prefix of the log the entry is appended to.
  have hbefore : ∀ {term}, (∃ log, .elected term log ∈ s.history) →
      ∃ log, .elected term log ∈ s'.history ∧ log <+: s.log :=
    fun ⟨log, hlog⟩ ↦ ⟨log, h.history_subset hlog, (hs _ hlog log rfl).2⟩
  refine ⟨h.leadsElected ha.leads, fun task htask ↦ ?_, fun ticket before entry hev ↦ ?_⟩
  · rcases h.mem_storeTasks htask with htask | ⟨hl, -, cmd, -, heq⟩
    · exact hgrow (ha.task task htask)
    · rw [heq]
      exact hgrow (ha.leads hl)
  · rcases h.of_mem_history hev with hold | ⟨rfl, -, hfrom⟩
    · obtain ⟨log, hlog, hle⟩ := ha.created ticket before entry hold
      exact ⟨log, h.history_subset hlog, hle⟩
    · rcases hfrom with ⟨cmd, -, hl, -, rfl⟩ | ⟨k, -, htask⟩
      · exact hbefore (ha.leads hl)
      · exact hbefore (ha.task _ (mem_of_getElem? htask))

end

end Server

/-! ### Where entries come from -/

/-- Every entry but the placeholder was appended by some server to what precedes it. -/
def Origin (c : Cluster σ) : Prop :=
  ∀ i k e, 1 ≤ k → (c.servers i).log[k]? = some e →
    ∃ j ticket before, .created ticket before e ∈ (c.servers j).history ∧ before.length = k ∧
      before ++ [e] <+: (c.servers i).log

/-- The appends of a run without truncation. -/
structure AppendInv (cfg : Config σ) (c : Cluster σ) : Prop extends ReplicationInv cfg c where
  snapshots : ∀ i, (c.servers i).Snapshots
  appends : ∀ i, (c.servers i).Appends

section

variable {cfg : Config σ} {c : Cluster σ} {s' : Server σ} {act : Action} {out : List Packet}

/-- **Every entry has a maker**: a server that was elected in its term, with a log that ends before
the entry, and that has had the same log up to the entry. -/
theorem AppendInv.exists_maker (h : AppendInv cfg c) (horigin : Origin c) {i k : ℕ} {e : LogEntry}
    (hk : 1 ≤ k) (he : (c.servers i).log[k]? = some e) :
    ∃ a log, .elected e.term log ∈ (c.servers a).history ∧ log.length ≤ k ∧
      log <+: (c.servers i).log ∧ AgreeTo (c.servers i).log (c.servers a).log k := by
  obtain ⟨a, ticket, before, hcreated, hlen, hle⟩ := horigin i k e hk he
  obtain ⟨log, helected, hlog⟩ := (h.appends a).created _ _ _ hcreated
  have hown := (h.snapshots a _ hcreated _ rfl).2
  refine ⟨a, log, helected, hlen ▸ hlog.length_le, ?_, before ++ [e], by simp [hlen], hle, hown⟩
  exact (hlog.trans (prefix_append _ _)).trans hle

section

variable (h : AppendInv cfg c) (hsafe : ElectionSafe c) (horigin : Origin c)
include h hsafe horigin

variable {i j k : ℕ} {e e' : LogEntry}

/-- **Entries of one term have one maker**, so up to the lower of them the logs agree. -/
theorem AppendInv.agreeTo_of_le {k' : ℕ} (hi : (c.servers i).log[k]? = some e)
    (hj : (c.servers j).log[k']? = some e') (hterm : e.term = e'.term) (hle : k ≤ k') :
    AgreeTo (c.servers i).log (c.servers j).log k := by
  rcases Nat.eq_zero_or_pos k with rfl | hpos
  · exact h.agreeTo_zero i j
  · obtain ⟨a, log, helected, -, -, hagree⟩ := h.exists_maker horigin hpos hi
    obtain ⟨a', log', helected', -, -, hagree'⟩ := h.exists_maker horigin (by omega) hj
    obtain rfl : a = a' := hsafe a a' e.term log log' helected (hterm ▸ helected')
    exact hagree.trans (hagree'.of_le hle).symm

theorem AppendInv.agreeTo (hi : (c.servers i).log[k]? = some e)
    (hj : (c.servers j).log[k]? = some e') (hterm : e.term = e'.term) :
    AgreeTo (c.servers i).log (c.servers j).log k :=
  h.agreeTo_of_le hsafe horigin hi hj hterm (le_refl k)

variable {dst src : ℕ} {req : AppendEntriesRequest}

/-- A request that is accepted meets a log that agrees with its sender's up to the previous entry;
or it is a heartbeat from past the end of the sender's log. -/
theorem AppendInv.agreeTo_prev
    (hread : req.ReadFrom (c.servers src).log) (hacc : (c.servers dst).Accepts req) :
    (AgreeTo (c.servers dst).log (c.servers src).log req.prevLogIndex ∧
        req.entries <+: (c.servers src).log.drop (req.prevLogIndex + 1)) ∨
      1 ≤ req.prevLogIndex ∧ req.prevLogTerm = 0 ∧ req.entries = [] := by
  rcases hread with ⟨e, hget, hterm, hentries⟩ | hpast
  · refine .inl ⟨?_, hentries⟩
    have hdst := h.log dst
    -- The term the receiver finds at the previous index is not the zero of a missing entry.
    rcases lt_or_ge req.prevLogIndex (c.servers dst).log.length with hlt | hge
    · have hget' := getElem?_eq_getElem hlt
      have hacc' := hacc.2
      rw [getLogTerm_of_getElem? hdst.log_ne_nil hget', ← hterm] at hacc'
      exact h.agreeTo hsafe horigin hget' hget hacc'
    · have hzero := hacc.2
      rw [getLogTerm_eq hdst.log_ne_nil, getElem?_eq_none hge] at hzero
      have hpos := ((h.log src).term (lt_of_lt_of_le hdst.length_pos hge) hget).1
      rw [hterm, ← hzero] at hpos
      exact absurd hpos (by decide)
  · exact .inr hpast

/-- Where an accepted request overlaps with the log and does not conflict, the log agrees with the
sender's. -/
theorem AppendInv.agreeTo_overlap
    (hentries : req.entries <+: (c.servers src).log.drop (req.prevLogIndex + 1))
    (hno : (c.servers dst).toMemoryStore.NoConflict (req.prevLogIndex + 1) req.entries) :
    ∀ m < req.entries.length, req.prevLogIndex + 1 + m < (c.servers dst).log.length →
      AgreeTo (c.servers dst).log (c.servers src).log (req.prevLogIndex + 1 + m) := by
  intro m hm hlt
  have hne := (h.log dst).log_ne_nil
  have hget := getElem?_eq_getElem hlt
  have hreq := getElem?_eq_getElem hm
  have hsrc : (c.servers src).log[req.prevLogIndex + 1 + m]? = some req.entries[m] := by
    rw [← getElem?_drop]
    exact List.prefix_iff_getElem?.1 hentries m hm
  have hterm := hno.term_eq hreq ((le_latestIndex_iff hne).2 hlt)
  rw [getLogTerm_of_getElem? hne hget] at hterm
  exact h.agreeTo hsafe horigin hget hsrc hterm.symm

/-- **Storing copies.** A request that is accepted without a conflict leaves the log as it is, or
makes it a prefix of the sender's. -/
theorem AppendInv.stored_cases
    (hread : req.ReadFrom (c.servers src).log) (hacc : (c.servers dst).Accepts req)
    (hno : (c.servers dst).toMemoryStore.NoConflict (req.prevLogIndex + 1) req.entries) :
    ((c.servers dst).toMemoryStore.storeEntries req).log = (c.servers dst).log ∨
      ((c.servers dst).toMemoryStore.storeEntries req).log <+: (c.servers src).log := by
  rw [storeEntries_log (h.log dst).log_ne_nil hno]
  rcases h.agreeTo_prev hsafe horigin hread hacc with ⟨hprev, hentries⟩ | ⟨-, -, hnil⟩
  · rcases le_total (c.servers dst).log.length (req.prevLogIndex + 1 + req.entries.length) with
      hle | hge
    · have hall := hprev.isPrefix_of_overlap (h.agreeTo_overlap hsafe horigin hentries hno) hle
      exact .inr (append_drop_isPrefix hall hentries hprev.lt_length)
    · left
      rw [drop_eq_nil_of_le (by omega), append_nil]
  · left
    rw [hnil, drop_nil, append_nil]

/-- **Every entry keeps its origin.** -/
theorem AppendInv.origin_after (ht : c.Takes cfg act s' out)
    (hok : (c.servers act.actor).AppendOnly act.input) : Origin (c.after act s' out) := by
  -- An origin found before the step is one after it, for any log that has the same prefix.
  have hkeep : ∀ {i k e l}, 1 ≤ k → (c.servers i).log[k]? = some e → k < l.length →
      (∀ p, p.length ≤ l.length → p <+: (c.servers i).log → p <+: l) →
      ∃ j ticket before, .created ticket before e ∈ ((c.after act s' out).servers j).history ∧
        before.length = k ∧ before ++ [e] <+: l := by
    intro i k e l hk he hlt hl
    obtain ⟨j, ticket, before, hcreated, hlen, hle⟩ := horigin i k e hk he
    refine ⟨j, ticket, before, ?_, hlen, hl _ (by simp only [length_append]; simp; omega) hle⟩
    exact ht.history_subset j hcreated
  intro i k e hk he
  rcases eq_or_ne i act.actor with rfl | hne
  swap
  · rw [after_servers_of_ne hne] at he ⊢
    exact hkeep hk he (List.getElem?_eq_some_iff.1 he).1 fun _ _ hp ↦ hp
  rw [after_servers_self] at he ⊢
  have hgrow := ht.effect.log_isPrefix hok.2 (h.log _).log_ne_nil
  have hlt := (List.getElem?_eq_some_iff.1 he).1
  rcases lt_or_ge k (c.servers act.actor).log.length with hold | hnew
  · exact hkeep hk (hgrow.getElem?_of_lt he hold) hlt fun _ _ hp ↦ hp.trans hgrow
  rcases ht.effect.log_cases with heq | ⟨src, req, hinp, hacc, heq⟩ | ⟨ticket, entry, hev, heq, -⟩
  · rw [heq] at hlt
    omega
  · have hno := hok.2
    rw [hinp] at hno
    rcases h.stored_cases hsafe horigin (h.delivered ht hinp).readFrom hacc (hno hacc) with
      hsame | hcopy
    · rw [heq, hsame] at hlt
      omega
    · rw [← heq] at hcopy
      exact hkeep hk (hcopy.getElem?_of_some he) hlt fun p hlen hp ↦
        prefix_of_prefix_length_le hp hcopy hlen
  · rw [heq] at he hlt ⊢
    obtain rfl : k = (c.servers act.actor).log.length := by
      simp only [length_append, length_singleton] at hlt
      omega
    obtain rfl : entry = e := by simpa using he
    exact ⟨act.actor, ticket, _, by rwa [after_servers_self], rfl, prefix_refl _⟩

end

theorem AppendInv.after (h : AppendInv cfg c) (ht : c.Takes cfg act s' out)
    (hok : (c.servers act.actor).AppendOnly act.input) : AppendInv cfg (c.after act s' out) where
  toReplicationInv := h.toReplicationInv.after ht hok
  snapshots j := forall_after (fun _ hs ↦ hs)
    (ht.effect.snapshots (h.log _).log_ne_nil
      (ht.effect.log_isPrefix hok.2 (h.log _).log_ne_nil)) j (h.snapshots j)
  appends j := forall_after (fun _ ha ↦ ha)
    (ht.effect.appends (h.snapshots _)) j (h.appends j)

theorem appendInv_start (cfg : Config σ) : AppendInv cfg (.start cfg) where
  toReplicationInv := replicationInv_start cfg
  snapshots _ _ h := absurd h not_mem_nil
  appends _ :=
    { leads := fun h ↦ by cases h
      task := fun _ h ↦ absurd h not_mem_nil
      created := fun _ _ _ h ↦ absurd h not_mem_nil }

theorem Reachable.appendInv (h : Reachable cfg Server.AppendOnly c) : AppendInv cfg c :=
  h.invariant_after (appendInv_start cfg) fun _ hinv ht hok ↦ hinv.after ht hok

theorem ElectionSafe.of_after (ht : c.Takes cfg act s' out)
    (h : ElectionSafe (c.after act s' out)) : ElectionSafe c :=
  fun i j term log log' hi hj ↦
    h i j term log log' (ht.history_subset i hi) (ht.history_subset j hj)

theorem Reachable.origin (h : Reachable cfg Server.AppendOnly c) (hsafe : ElectionSafe c) :
    Origin c := by
  revert hsafe
  refine h.invariant_after (P := fun c ↦ ElectionSafe c → Origin c) ?_ ?_
  · intro _ i k e hk he
    have hlt : k < 1 := (List.getElem?_eq_some_iff.1 he).1
    omega
  · intro c act s' out hr horigin ht hok hsafe
    have hsafe' := hsafe.of_after ht
    exact Reachable.appendInv hr |>.origin_after hsafe' (horigin hsafe') ht hok

/-- **Log matching**, in every cluster and every run in which no term wraps and no accepted request
conflicts with the log it is stored in, given that no term has had two leaders. -/
theorem log_matching (h : Reachable cfg Server.AppendOnly c) (hsafe : ElectionSafe c) :
    LogMatching c := by
  intro i j k e e' hi hj hterm m hm
  exact (h.appendInv.agreeTo hsafe (h.origin hsafe) hi hj hterm).getElem?_eq hm

end

/-- Server 1 is elected, appends an entry, and replicates it to server 2. -/
theorem logMatching_of_replication : ∃ c, Reachable .trio Server.AppendOnly c ∧
      (c.servers 2).log = [.empty, .ofCommand 2 [1]] ∧ LogMatching c := by
  obtain ⟨c, hc, hlog⟩ : ∃ c, Reachable .trio (fun s inp ↦ s.AppendOnly inp ∧ s.FairVote inp) c ∧
      (c.servers 2).log = [.empty, .ofCommand 2 [1]] :=
    exists_reach_of_run (Action.election 1 [2, 3] 2 0 0 ++
        [⟨1, .beginLoop 2⟩, ⟨1, .command [1]⟩, ⟨1, .replicate 2⟩,
          .appends 1 2 ⟨2, 1, 0, 0, 0, [.ofCommand 2 [1]]⟩]) (by decide)
  have happend : Reachable .trio Server.AppendOnly c := hc.mono fun _ _ h ↦ h.1
  have hfair : Reachable .trio Server.FairVote c := hc.mono fun _ _ h ↦ h.2
  exact ⟨c, happend, hlog, log_matching happend (hfair.electionInv.electionSafe hfair.bound)⟩

/-- Server 1 has appended an entry in term 2 when server 3 is elected in term 3, appends two, and
replicates them to server 1, which truncates its log to nothing and stores both from index 0 on. -/
def truncation : List Action :=
  Action.election 1 [2, 3] 2 0 0 ++ [⟨1, .command [1]⟩] ++ Action.election 3 [1, 2] 3 0 0 ++
    [⟨3, .beginLoop 1⟩, ⟨3, .beginLoop 2⟩, ⟨3, .command [2]⟩, ⟨3, .command [3]⟩, ⟨3, .replicate 1⟩,
      .appends 3 1 ⟨3, 3, 0, 0, 0, [.ofCommand 3 [2], .ofCommand 3 [3]]⟩]

/-- **The two logs now hold entries of term 3 at index 1, and agree neither there nor at index
0.** -/
theorem shifted_by_truncation :
    ∃ c, Reachable .trio Server.anyStep c ∧ ElectionSafe c ∧ ¬ LogMatching c := by
  obtain ⟨c, hc, h₁, h₃⟩ : ∃ c, Reachable .trio Server.FairVote c ∧
      (c.servers 1).log = [.ofCommand 3 [2], .ofCommand 3 [3]] ∧
      (c.servers 3).log = [.empty, .ofCommand 3 [2], .ofCommand 3 [3]] :=
    exists_reach_of_run truncation (by decide)
  refine ⟨c, hc.mono fun _ _ _ ↦ trivial, hc.electionInv.electionSafe hc.bound, fun h ↦ ?_⟩
  have hsame := h 1 3 1 (.ofCommand 3 [3]) (.ofCommand 3 [2]) (by rw [h₁]; rfl) (by rw [h₃]; rfl)
    rfl 1 (le_refl 1)
  rw [h₁, h₃] at hsame
  exact absurd hsame (by decide)

end Xzero.Raft
