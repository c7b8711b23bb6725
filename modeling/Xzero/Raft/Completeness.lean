import Xzero.Raft.Commit
import Xzero.Raft.UpToDate

/-!
# Leader completeness

Whoever is elected after a commit holds what was committed (`leader_completeness`), in every sound
run in which, moreover, votes are granted to candidates that are up to date, appends are made in
order, and a leader moves its commit index on to entries of its own term only (`Complete`). The
first of these and the last are rules of the protocol that **the code does not implement**, and
without the vote rule a majority that holds a committed entry elects a leader that does not
(`elected_without_entry`).

An index is *settled* in a term if a majority upholds it (`Settled`): their logs agree up to it, and
so do the logs they have cast ballots with since. A leader of a later term was elected by a
majority, so by someone who upholds the index, and with a log that is not older.
-/

namespace Xzero.Raft

open List MemoryStore TransitionSystem Server Action Cluster

variable {σ : Type}

namespace Server

/-- Where a leader that records a response finds that more than half of the followers it knows have
gone past its commit index, the furthest they have all reached is an entry of its own term. -/
def CommitsOwnTerm (s : Server σ) : Input → Prop
  | .receive src (.appendEntriesResponse resp) => s.state = .leader →
    ∀ n ≤ s.latestIndex, s.commitIndex < n →
      Reached (matchIndices (recordResponse s.followers src resp)) n →
      ¬ Reached (matchIndices (recordResponse s.followers src resp)) (n + 1) →
      s.getLogTerm n = s.currentTerm
  | _ => True

instance (s : Server σ) : (inp : Input) → Decidable (s.CommitsOwnTerm inp)
  | .receive _ (.appendEntriesResponse _) => inferInstanceAs (Decidable (_ → _))
  | .receive _ (.voteRequest _) | .receive _ (.voteResponse _)
  | .receive _ (.appendEntriesRequest _) | .timeout | .command _ | .store _ | .beginLoop _
  | .replicate _ | .apply | .resume => inferInstanceAs (Decidable True)

/-- What the code does not see to, all together. -/
def Complete (cfg : Config σ) (s : Server σ) (inp : Input) : Prop :=
  s.Sound cfg inp ∧ s.UpToDateVote inp ∧ s.OrderedStore inp ∧ s.CommitsOwnTerm inp

instance (cfg : Config σ) (s : Server σ) (inp : Input) : Decidable (s.Complete cfg inp) :=
  inferInstanceAs (Decidable (_ ∧ _))

theorem Complete.upToDate {cfg : Config σ} {s : Server σ} {inp : Input} (h : s.Complete cfg inp) :
    s.UpToDate inp :=
  ⟨h.1.1, h.1.2.1.appendOnly, h.2.1, h.2.2.1⟩

theorem mem_ballots {s : Server σ} {term candidate : ℕ} : (term, candidate) ∈ s.ballots ↔
      (∃ log, .candidacy term log ∈ s.history ∧ candidate = s.id) ∨
        ∃ log, .voted term candidate log ∈ s.history := by
  rw [ballots, mem_filterMap]
  constructor
  · rintro ⟨ev, hev, hballot⟩
    cases ev with
    | candidacy t log =>
      cases hballot
      exact .inl ⟨log, hev, rfl⟩
    | voted t cand log =>
      cases hballot
      exact .inr ⟨log, hev⟩
    | _ => cases hballot
  · rintro (⟨log, hev, rfl⟩ | ⟨log, hev⟩)
    · exact ⟨_, hev, rfl⟩
    · exact ⟨_, hev, rfl⟩

end Server

/-! ### Settled indices -/

/-- The index holds an entry of the term, and a majority upholds it. -/
structure Settled (cfg : Config σ) (c : Cluster σ) (term index : ℕ) (log : List LogEntry) :
    Prop where
  entry : ∃ e, log[index]? = some e ∧ e.term = term
  upheld : Majority cfg.members.toFinset fun q ↦ (c.servers q).Upholds term log index

/-- The log agrees, up to the index, with one that is settled there or further on, in the term or an
earlier one. -/
def Covered (cfg : Config σ) (c : Cluster σ) (term index : ℕ) (log : List LogEntry) : Prop :=
  ∃ term₀ index₀ log₀, Settled cfg c term₀ index₀ log₀ ∧ term₀ ≤ term ∧ index ≤ index₀ ∧
    AgreeTo log log₀ index

section

variable {cfg : Config σ} {c : Cluster σ} {s' : Server σ} {act : Action} {out : List Packet}
  {term term' index index' : ℕ} {log log' : List LogEntry}

theorem Settled.covered (h : Settled cfg c term index log) : Covered cfg c term index log := by
  obtain ⟨e, he, -⟩ := h.entry
  exact ⟨term, index, log, h, le_refl _, le_refl _, .refl (List.getElem?_eq_some_iff.1 he).1⟩

section

variable (h : Covered cfg c term index log)
include h

theorem Covered.mono (hterm : term ≤ term')
    (hindex : index' ≤ index) (hlog : AgreeTo log' log index') :
    Covered cfg c term' index' log' := by
  obtain ⟨term₀, index₀, log₀, hsettled, hle, hle', hagree⟩ := h
  exact ⟨term₀, index₀, log₀, hsettled, le_trans hle hterm, le_trans hindex hle',
    hlog.trans (hagree.of_le hindex)⟩

theorem Covered.lt_length : index < log.length := by
  obtain ⟨term₀, index₀, log₀, -, -, -, hagree⟩ := h
  exact hagree.lt_length

theorem Covered.of_isPrefix (hterm : term ≤ term')
    (hlog : log <+: log') : Covered cfg c term' index log' :=
  h.mono hterm (le_refl _) (AgreeTo.of_isPrefix hlog h.lt_length).symm

/-- **Settled once, settled for good.** -/
theorem Covered.after (hinv : AppendInv cfg c)
    (ht : c.Takes cfg act s' out) (hok : (c.servers act.actor).AppendOnly act.input) :
    Covered cfg (c.after act s' out) term index log := by
  obtain ⟨term₀, index₀, log₀, ⟨hentry, hupheld⟩, hrest⟩ := h
  exact ⟨term₀, index₀, log₀,
    ⟨hentry, hupheld.mono fun _ _ hu ↦ hinv.upholds_after ht hok hu⟩, hrest⟩

end

theorem covered_start (cfg : Config σ) {i : ℕ} (hi : i ∈ cfg.members) (term : ℕ) :
    Covered cfg (.start cfg) term 0 ((start cfg).servers i).log := by
  have hlog : [LogEntry.empty] <+: [LogEntry.empty] := prefix_refl _
  refine ⟨0, 0, [.empty], ⟨⟨.empty, rfl, rfl⟩, ?_⟩, Nat.zero_le _, Nat.le_refl _,
    .of_isPrefix hlog Nat.zero_lt_one⟩
  refine ⟨cfg.members.toFinset, Finset.Subset.refl _, ?_, fun q _ ↦ ?_⟩
  · have hpos : 0 < cfg.members.toFinset.card := Finset.card_pos.2 ⟨i, mem_toFinset.2 hi⟩
    omega
  · refine ⟨.of_isPrefix hlog Nat.zero_lt_one, fun term' log' hc _ ↦ ?_⟩
    rcases hc with hc | ⟨candidate, hc⟩
    · exact absurd hc not_mem_nil
    · exact absurd hc not_mem_nil

/-! ### What is settled, later leaders hold -/

/-- **A log that is not older carries on what is settled.** The first log is that of a voter, the
second that of a candidate; in the terms in between, whoever was elected held what is settled. -/
theorem AppendInv.agreeTo_of_notNewer (h : AppendInv cfg c) (hsafe : ElectionSafe c)
    (horigin : Origin c) {i j : ℕ} {logᵥ log₁ : List LogEntry} {e : LogEntry}
    (hv : logᵥ <+: (c.servers i).log) (hasc : Ascending logᵥ)
    (hne : log₁ ≠ []) (hc : log₁ <+: (c.servers j).log) (hle : NotNewer logᵥ log₁)
    (hagree : AgreeTo logᵥ log index) (he : log[index]? = some e)
    (hbetween : ∀ a log', e.term < lastTerm log₁ →
      .elected (lastTerm log₁) log' ∈ (c.servers a).history → AgreeTo log' log index) :
    AgreeTo log₁ log index := by
  have hlt := hagree.lt_length
  have hneᵥ : logᵥ ≠ [] := ne_nil_of_length_pos (by omega)
  obtain ⟨last, hlast, hterm⟩ := exists_lastTerm hneᵥ
  obtain ⟨last', hlast', hterm'⟩ := exists_lastTerm hne
  have hgetᵥ : logᵥ[index]? = some e := (hagree.getElem?_eq (le_refl _)).trans he
  have hfirst := hasc.le_lastTerm (mem_of_getElem? hgetᵥ)
  rcases hle with hnewer | ⟨hsame, hle⟩
  · -- The candidate's last entry was made by someone elected after the index was settled.
    have hpos : 1 ≤ log₁.length - 1 := by
      by_contra hzero
      have hhead := hc.getElem?_of_some hlast'
      rw [show log₁.length - 1 = 0 by omega, (h.log j).head] at hhead
      have hempty : lastTerm log₁ = 0 := by rw [hterm', ← Option.some.inj hhead]; rfl
      omega
    obtain ⟨a, log', helected, hshort, hlog', -⟩ :=
      h.exists_maker horigin hpos (hc.getElem?_of_some hlast')
    have hcarried := hbetween a log' (by omega) (hterm' ▸ helected)
    exact hcarried.mono (prefix_of_prefix_length_le hlog' hc (by omega)) (prefix_refl _)
  · -- Both logs end in one term, so they agree as far as the voter's goes.
    have hboth := h.agreeTo_of_le hsafe horigin (hv.getElem?_of_some hlast)
      (hc.getElem?_of_some hlast') (hterm ▸ hterm' ▸ hsame) (by omega)
    have hvoter : AgreeTo logᵥ (c.servers i).log index := .of_isPrefix hv hlt
    have hcand : AgreeTo log₁ (c.servers j).log index := .of_isPrefix hc (by omega)
    exact hcand.trans ((hboth.of_le (by omega)).symm.trans (hvoter.symm.trans hagree))

/-- **What is settled, every leader of a later term has held from its election on.** -/
theorem Settled.agreeTo_of_elected (hs : Settled cfg c term index log) (h : AppendInv cfg c)
    (hel : ElectionInv cfg c) (hsafe : ElectionSafe c) (horigin : Origin c)
    (hcand : CandidacyInv c) :
    ∀ {term' j log'}, .elected term' log' ∈ (c.servers j).history → term < term' →
      AgreeTo log' log index := by
  -- By strong induction on the term of the election.
  intro term'
  induction term' using Nat.strong_induction_on with
  | _ term' ih =>
    intro j log' helected hlt
    obtain ⟨e, he, rfl⟩ := hs.entry
    have hwon := (hcand.candidacies j).won term' log'
    obtain ⟨b, -, hballot, hupholds⟩ := (hel.crowned j term' log' helected).exists_and hs.upheld
    rcases mem_ballots.1 hballot with ⟨log₁, hcandidacy, hself⟩ | ⟨logᵥ, hvoted⟩
    · -- The leader itself upholds the index.
      obtain rfl : j = b := hself.trans (hel.id b)
      exact (hupholds.2 term' log₁ (.inl hcandidacy) hlt).mono (hwon _ helected hcandidacy)
        (prefix_refl _)
    · have hagree := hupholds.2 term' logᵥ (.inr ⟨j, hvoted⟩) hlt
      obtain ⟨log₁, hcandidacy, hle⟩ := hcand.voted b term' j logᵥ hvoted
      have hv := (h.snapshots b _ hvoted logᵥ rfl).2
      obtain ⟨hne, hc⟩ := h.snapshots j _ hcandidacy log₁ rfl
      refine AgreeTo.mono ?_ (hwon _ helected hcandidacy) (prefix_refl _)
      refine h.agreeTo_of_notNewer hsafe horigin hv ((hcand.ascending b).of_isPrefix hv) hne hc hle
        hagree he fun a log₂ hbetween helected₂ ↦ ?_
      -- The candidate's last entry is older than its candidacy.
      obtain ⟨last, hlast, hterm⟩ := exists_lastTerm hne
      have hyoung := (hcand.candidacies j).young term' log₁ hcandidacy last (mem_of_getElem? hlast)
      exact ih _ (hterm ▸ hyoung) helected₂ hbetween

end

/-! ### Commits settle -/

/-- Commit indices are covered wherever they are: on servers, in flight, and when they were
assigned. -/
structure CompleteInv (cfg : Config σ) (c : Cluster σ) : Prop where
  commitIndex : ∀ i ∈ cfg.members,
    Covered cfg c (c.servers i).currentTerm (c.servers i).commitIndex (c.servers i).log
  leaderCommit : ∀ p ∈ c.network, ∀ req, p.msg = .appendEntriesRequest req →
    Covered cfg c req.term req.leaderCommit (c.servers p.src).log
  committed : ∀ i role term index log, .committed role term index log ∈ (c.servers i).history →
    Covered cfg c term index log

section

variable {cfg : Config σ} {c : Cluster σ} {s' : Server σ} {act : Action} {out : List Packet}

theorem completeInv_start (cfg : Config σ) : CompleteInv cfg (.start cfg) where
  commitIndex _ hi := covered_start cfg hi _
  leaderCommit _ hp := absurd hp not_mem_nil
  committed _ _ _ _ _ h := absurd h not_mem_nil

/-- **A commit index that a leader computes is covered**: it is no further than the present one, or
settled in the leader's term. -/
theorem CompleteInv.computed_after (h : CompleteInv cfg c) (hinv : CommitInv cfg c)
    (ht : c.Takes cfg act s' out) (hok : (c.servers act.actor).Complete cfg act.input)
    (hb : s'.Bound) {src : ℕ} {resp : AppendEntriesResponse}
    (hinp : act.input = .receive src (.appendEntriesResponse resp))
    (hl : (c.servers act.actor).state = .leader)
    (hfollowers : s'.followers = recordResponse (c.servers act.actor).followers src resp)
    (hcommit : s'.commitIndex = computeCommitIndex s'.followers) :
    Covered cfg (c.after act s' out) s'.currentTerm s'.commitIndex s'.log := by
  have happend := hok.1.2.1.appendOnly
  have hne := (hinv.log act.actor).log_ne_nil
  have heffect := ht.effect
  rw [hinp] at heffect
  have hstore := heffect.store_of_response
  have hupheld := hinv.vouched_after ht hok.1 hb hinp hl hfollowers
  rw [← hcommit] at hupheld
  simp only [Vouches, after_servers_self, hstore] at hupheld ⊢
  rcases lt_or_ge (c.servers act.actor).commitIndex s'.commitIndex with hlt | hge
  · obtain ⟨hreached, hhighest⟩ := computeCommitIndex_spec (matchIndices_ne_nil hfollowers)
    rw [← hcommit] at hreached hhighest
    have hnext : ¬ Server.Reached (matchIndices s'.followers) (s'.commitIndex + 1) :=
      fun hr ↦ absurd (hhighest _ hr) (by omega)
    obtain ⟨q, -, hq, -⟩ := hupheld.exists_and hupheld
    have hin := hq.1.symm.lt_length
    have hown := hok.2.2.2
    rw [hinp] at hown
    have hterm := hown hl s'.commitIndex ((le_latestIndex_iff hne).2 hin) hlt
      (hfollowers ▸ hreached) (hfollowers ▸ hnext)
    have hget := getElem?_eq_getElem hin
    rw [getLogTerm_of_getElem? hne hget] at hterm
    exact Settled.covered ⟨⟨_, hget, hterm⟩, hupheld⟩
  · have hold := (h.commitIndex _ ht.mem).after hinv.toAppendInv ht happend
    exact hold.mono (le_refl _) hge (.refl (lt_of_le_of_lt hge hold.lt_length))

section

variable (h : CompleteInv cfg c) (hinv : CommitInv cfg c) (hsafe : ElectionSafe c)
  (horigin : Origin c) (ht : c.Takes cfg act s' out)
  (hok : (c.servers act.actor).Complete cfg act.input) (hb : s'.Bound)
include h hinv hsafe horigin ht hok hb

theorem CompleteInv.commitIndex_after :
    Covered cfg (c.after act s' out) s'.currentTerm s'.commitIndex s'.log := by
  have happend := hok.1.2.1.appendOnly
  rcases ht.effect.commitIndex_cases with
    heq | ⟨src, req, hinp, hacc, -, heq⟩ | ⟨src, resp, hinp, hl, hfollowers, heq⟩
  · rw [heq]
    refine ((h.commitIndex _ ht.mem).after hinv.toAppendInv ht happend).of_isPrefix ?_ ?_
    · exact ht.effect.currentTerm_le happend.1
    · exact ht.effect.log_isPrefix happend.2 (hinv.log _).log_ne_nil
  · -- The follower has copied the log of the leader, whose commit index is covered.
    obtain ⟨hcopy, hlen⟩ := hinv.stored_isPrefix hsafe horigin ht hok.1.2.1.2.1 hinp hacc
    have hold := (h.leaderCommit _ (ht.deliver _ (by rw [packet, hinp]; rfl)) req rfl).after
      hinv.toAppendInv ht happend
    have heffect := ht.effect
    rw [hinp] at heffect
    rw [heq, heffect.currentTerm_of_accepts hacc]
    exact hold.mono (le_refl _) (min_le_left _ _) (.of_isPrefix hcopy (by omega))
  · exact h.computed_after hinv ht hok hb hinp hl hfollowers heq

theorem CompleteInv.after : CompleteInv cfg (c.after act s' out) := by
  have happend := hok.1.2.1.appendOnly
  have hself := h.commitIndex_after hinv hsafe horigin ht hok hb
  refine ⟨fun j ↦ ?_, fun p hp req hmsg ↦ ?_, fun j role term index log hev ↦ ?_⟩
  · exact after_cases (fun _ ↦ hself)
      (fun j hj ↦ (h.commitIndex j hj).after hinv.toAppendInv ht happend) j
  · rcases mem_append.1 hp with hp | hp
    · exact ((h.leaderCommit p (mem_of_mem_consume hp) req hmsg).after hinv.toAppendInv ht
        happend).of_isPrefix (le_refl _) (hinv.log_isPrefix ht happend p.src)
    · obtain ⟨-, hsrc, -, -, entries, rfl, -⟩ := ht.effect.appendRequest_of_mem_out hp hmsg
      rw [hsrc, hinv.id]
      exact ((h.commitIndex _ ht.mem).after hinv.toAppendInv ht happend).of_isPrefix
        (le_refl _) (hinv.log_isPrefix ht happend _)
  · rcases ht.of_mem_history hev with hold | ⟨rfl, -, rfl, rfl, rfl, -⟩
    · exact (h.committed j role term index log hold).after hinv.toAppendInv ht happend
    · exact hself

end

theorem Reachable.completeInv (h : Reachable cfg (Server.Complete cfg) c) : CompleteInv cfg c := by
  refine h.invariant_after (completeInv_start cfg) ?_
  intro c act s' out hr hinv ht hok
  have hsound : Reachable cfg (Server.Sound cfg) c := hr.mono fun _ _ hok ↦ hok.1
  exact hinv.after hsound.commitInv hsound.electionSafe_of_sound hsound.origin_of_sound ht hok
    (ht.effect.bound hok.1.1.1 (hsound.bound_of_sound _))

/-! ### Leader completeness -/

/-- What a leader has committed, whoever is elected in a later term holds at that moment. -/
def LeaderComplete (c : Cluster σ) : Prop :=
  ∀ i j term term' index k log log', .committed .leader term index log ∈ (c.servers i).history →
    .elected term' log' ∈ (c.servers j).history → term < term' → k ≤ index →
    ∃ entry, log[k]? = some entry ∧ log'[k]? = some entry

/-- **Leader completeness**, in every cluster and every run whose steps are all complete. -/
theorem leader_completeness (h : Reachable cfg (Server.Complete cfg) c) : LeaderComplete c := by
  intro i j term term' index k log log' hcommitted helected hlt hk
  have hsound : Reachable cfg (Server.Sound cfg) c := h.mono fun _ _ hok ↦ hok.1
  have hfair : Reachable cfg Server.FairVote c := h.mono fun _ _ hok ↦ hok.1.1
  have hupToDate : Reachable cfg Server.UpToDate c := h.mono fun _ _ hok ↦ hok.upToDate
  obtain ⟨term₀, index₀, log₀, hsettled, hterm, hindex, hagree⟩ :=
    h.completeInv.committed i .leader term index log hcommitted
  have hcarried := hsettled.agreeTo_of_elected hsound.commitInv.toAppendInv hfair.electionInv
    hsound.electionSafe_of_sound hsound.origin_of_sound hupToDate.candidacyInv helected (by omega)
  have hget := getElem?_eq_getElem (lt_of_le_of_lt hk hagree.lt_length)
  refine ⟨_, hget, ?_⟩
  rw [hcarried.getElem?_eq (le_trans hk hindex), ← hagree.getElem?_eq hk, hget]

end

/-- Server 1 commits an entry in term 2, and server 2 is elected with it in term 3. -/
theorem leaderComplete_of_election : ∃ c, Reachable .trio (Server.Complete .trio) c ∧
      .committed .leader 2 1 [.empty, .ofCommand 2 [7]] ∈ (c.servers 1).history ∧
      .elected 3 [.empty, .ofCommand 2 [7]] ∈ (c.servers 2).history ∧ LeaderComplete c := by
  obtain ⟨c, hc, hcommitted, helected⟩ : ∃ c, Reachable .trio (Server.Complete .trio) c ∧
      .committed .leader 2 1 [.empty, .ofCommand 2 [7]] ∈ (c.servers 1).history ∧
      .elected 3 [.empty, .ofCommand 2 [7]] ∈ (c.servers 2).history :=
    exists_reach_of_run (replication ++ [.acks 3 1 2 1] ++ election 2 [1, 3] 3 1 2) (by decide)
  exact ⟨c, hc, hcommitted, helected, leader_completeness hc⟩

/-- Of four servers, server 1 is elected in term 2, replicates an entry to servers 2 and 3, and
commits it on their acknowledgements. Server 4, whose log is empty, stands in term 3: **the three
servers that hold the committed entry vote for it**. -/
theorem elected_without_entry : ∃ c, Reachable .quartet anyStep c ∧ ¬ LeaderComplete c := by
  obtain ⟨c, hc, hcommitted, helected⟩ : ∃ c, Reachable .quartet anyStep c ∧
      .committed .leader 2 1 [.empty, .ofCommand 2 [1]] ∈ (c.servers 1).history ∧
      .elected 3 [.empty] ∈ (c.servers 4).history :=
    exists_reach_of_run (election 1 [2, 3, 4] 2 0 0 ++
        [⟨1, .beginLoop 2⟩, ⟨1, .beginLoop 3⟩, ⟨1, .command [1]⟩,
          ⟨1, .replicate 2⟩, .appends 1 2 ⟨2, 1, 0, 0, 0, [.ofCommand 2 [1]]⟩,
          ⟨1, .replicate 3⟩, .appends 1 3 ⟨2, 1, 0, 0, 0, [.ofCommand 2 [1]]⟩,
          .acks 2 1 2 1, .acks 3 1 2 1] ++
        election 4 [1, 2, 3] 3 0 0) (by decide)
  refine ⟨c, hc, fun h ↦ ?_⟩
  obtain ⟨entry, -, hentry⟩ :=
    h 1 4 2 3 1 1 _ _ hcommitted helected (by decide) (le_refl 1)
  cases hentry

end Xzero.Raft
