import Xzero.Raft.LogMatching

/-!
# Replies to clients

A future that `sendCommandAsync` hands out is fulfilled with the reply to the very entry that was
made for its command (`replies_own`), in every run in which no accepted request truncates an entry
that a client still waits for (`KeepsPromises`).

Promises are kept by index alone, and **truncation does not touch them**: the promise of a client
whose entry is gone stays at its index, and whatever entry is applied there next answers it
(`replied_to_another`).
-/

namespace Xzero.Raft

open List MemoryStore TransitionSystem Server

variable {σ : Type}

namespace Server

/-- Where an accepted request conflicts with the log, so that everything from one index before the
conflict on is cut off, no client waits for an entry there. -/
def KeepsPromises (s : Server σ) : Input → Prop
  | .receive _ (.appendEntriesRequest req) => s.Accepts req →
    ∀ p ∈ req.entries.zipIdx (req.prevLogIndex + 1), p.2 ≤ s.latestIndex →
      p.1.term ≠ s.getLogTerm p.2 →
      ∀ promise ∈ s.appliedPromises.entries, promise.2 ≠ .handler → promise.1 + 1 < p.2
  | _ => True

instance (s : Server σ) : (inp : Input) → Decidable (s.KeepsPromises inp)
  | .receive _ (.appendEntriesRequest _) => inferInstanceAs (Decidable (_ → _))
  | .receive _ (.voteRequest _) | .receive _ (.voteResponse _)
  | .receive _ (.appendEntriesResponse _) | .timeout | .command _ | .store _ | .beginLoop _
  | .replicate _ | .apply | .resume => inferInstanceAs (Decidable True)

/-- Every future that has been fulfilled was fulfilled with the reply to the entry that was made for
its command. -/
def RepliesOwn (s : Server σ) : Prop :=
  ∀ ticket cmd reply, .submitted ticket cmd ∈ s.history → .replied ticket reply ∈ s.history →
    ∃ before entry, entry.command = cmd ∧ .created ticket before entry ∈ s.history ∧
      .applied before.length entry reply ∈ s.history

/-! ### Promises -/

/-- The entry was made for the future's command, after the given log. -/
def MadeFor (s : Server σ) (ticket : ℕ) (before : List LogEntry) (entry : LogEntry) : Prop :=
  .submitted ticket entry.command ∈ s.history ∧ .created ticket before entry ∈ s.history

/-- What a server knows of the futures it has handed out. -/
structure PromiseInv (s : Server σ) : Prop where
  log_ne_nil : s.log ≠ []
  submitted_lt : ∀ ticket cmd, .submitted ticket cmd ∈ s.history → ticket < s.tickets
  submitted_inj : ∀ ticket cmd cmd', .submitted ticket cmd ∈ s.history →
    .submitted ticket cmd' ∈ s.history → cmd = cmd'
  /-- An append that has been put off is for the future's command. -/
  task : ∀ task ∈ s.storeTasks, .submitted task.2 task.1.command ∈ s.history
  /-- A client's promise is kept at the index of the client's entry. -/
  promise : ∀ index ticket, s.appliedPromises.lookup index = some (.client ticket) →
    ∃ before entry, s.MadeFor ticket before entry ∧ before.length = index ∧
      s.log[index]? = some entry
  /-- A client has been answered with the reply to its entry. -/
  replied : ∀ ticket reply, .replied ticket reply ∈ s.history →
    ∃ before entry, s.MadeFor ticket before entry ∧ .applied before.length entry reply ∈ s.history

section

variable {cfg : Config σ} {s s' : Server σ} {inp : Input} {out : List Packet}

variable {ticket : ℕ} {entry : LogEntry}

theorem MadeFor.mono {before : List LogEntry}
    (h : s.MadeFor ticket before entry) (hsub : s.history ⊆ s'.history) :
    s'.MadeFor ticket before entry :=
  ⟨hsub h.1, hsub h.2⟩

theorem PromiseInv.repliesOwn (h : PromiseInv s) : s.RepliesOwn := by
  intro ticket cmd reply hsubmitted hreplied
  obtain ⟨before, entry, ⟨hcmd, hcreated⟩, happlied⟩ := h.replied ticket reply hreplied
  exact ⟨before, entry, h.submitted_inj _ _ _ hcmd hsubmitted, hcreated, happlied⟩

theorem promiseInv_start (cfg : Config σ) (id : ℕ) : PromiseInv (new cfg id).start where
  log_ne_nil := by
    show [LogEntry.empty] ≠ []
    simp
  submitted_lt _ _ h := absurd h not_mem_nil
  submitted_inj _ _ _ h := absurd h not_mem_nil
  task _ h := absurd h not_mem_nil
  promise _ _ h := by cases h
  replied _ _ h := absurd h not_mem_nil

/-! ### Applying -/

/-- **An iteration answers the client whose entry it applies.** -/
theorem PromiseInv.applyNext (h : PromiseInv s) (hnext : s.applyNext cfg = some s') :
    PromiseInv s' := by
  obtain ⟨entry, p, w, new, -, hentry, hf, rfl⟩ := applyNext_eq_some hnext
  rw [getLogEntry_eq h.log_ne_nil] at hentry
  generalize (cfg.applyCommand s.machine entry.command).1 = reply at hf ⊢
  have hsub : s.history ⊆ new ++ .applied (s.lastApplied + 1) entry reply :: s.history :=
    fun ev hev ↦ mem_append_right _ (mem_cons_of_mem _ hev)
  -- Futures are not handed out here.
  have hsubmitted : ∀ {ticket cmd}, .submitted ticket cmd ∈
      new ++ .applied (s.lastApplied + 1) entry reply :: s.history →
      .submitted ticket cmd ∈ s.history := by
    intro ticket cmd hev
    rcases mem_append.1 hev with hev | hev
    · obtain ⟨ticket', heq, -⟩ := hf.replied _ hev
      cases heq
    · exact (mem_cons.1 hev).resolve_left (by simp)
  refine
    { log_ne_nil := h.log_ne_nil
      submitted_lt := fun ticket cmd hev ↦ h.submitted_lt _ _ (hsubmitted hev)
      submitted_inj := fun ticket cmd cmd' hev hev' ↦
        h.submitted_inj _ _ _ (hsubmitted hev) (hsubmitted hev')
      task := fun task htask ↦ hsub (h.task task htask)
      promise := fun index ticket hlookup ↦ ?_
      replied := fun ticket r hev ↦ ?_ }
  · obtain ⟨before, e, hmade, hlen, hget⟩ := h.promise index ticket (hf.promise hlookup)
    exact ⟨before, e, hmade.mono hsub, hlen, hget⟩
  · rcases mem_append.1 hev with hev | hev
    · -- The entry at the index of the promise is the client's, and it is the one applied.
      obtain ⟨ticket', heq, hlookup⟩ := hf.replied _ hev
      cases heq
      obtain ⟨before, e, hmade, hlen, hget⟩ := h.promise _ ticket hlookup
      obtain rfl : entry = e := Option.some.inj (hentry.symm.trans hget)
      exact ⟨before, entry, hmade.mono hsub, hlen ▸ mem_append_right _ mem_cons_self⟩
    · have hev := (mem_cons.1 hev).resolve_left (by simp)
      obtain ⟨before, e, hmade, happlied⟩ := h.replied ticket r hev
      exact ⟨before, e, hmade.mono hsub, hsub happlied⟩

/-! ### The other inputs -/

theorem Effect.tickets_le (h : Effect cfg s inp s' out) :
    s.tickets ≤ s'.tickets ∧ ∀ cmd, inp = .command cmd →
      s'.tickets = s.tickets + 1 ∧ .submitted s.tickets cmd ∈ s'.history := by
  cases h with
  | voteGranted hle =>
    rw [grantVote_adoptTerm_eq hle]
    exact ⟨le_refl _, fun _ h ↦ by cases h⟩
  | appendAborted | appendCommitted | appendStored =>
    rw [acceptEntries_eq]
    exact ⟨le_refl _, fun _ h ↦ by cases h⟩
  | commandRejected | commandStored =>
    refine ⟨Nat.le_succ _, fun _ h ↦ ?_⟩
    cases h
    exact ⟨rfl, mem_cons_of_mem _ mem_cons_self⟩
  | commandDelayed =>
    refine ⟨Nat.le_succ _, fun _ h ↦ ?_⟩
    cases h
    exact ⟨rfl, mem_cons_self⟩
  | applied =>
    obtain ⟨m, p, w, l, new, heq, -⟩ := applyLogs_eq cfg s
    rw [heq]
    exact ⟨le_refl _, fun _ h ↦ by cases h⟩
  | _ => exact ⟨le_refl _, fun _ h ↦ by cases h⟩

variable {index k : ℕ}

theorem lookup_insertIfAbsent {β : Type} {m : AList fun _ : ℕ ↦ β} {b b' : β}
    (h : (insertIfAbsent m index b).lookup k = some b') :
    m.lookup k = some b' ∨ k = index ∧ b' = b := by
  unfold insertIfAbsent at h
  split at h
  · exact .inl h
  · rcases eq_or_ne k index with rfl | hne
    · rw [AList.lookup_insert] at h
      exact .inr ⟨rfl, (Option.some.inj h).symm⟩
    · rw [AList.lookup_insert_ne hne] at h
      exact .inl h

theorem lookup_storeTask {promise : Promise}
    (h : (s.storeTask cfg entry ticket).appliedPromises.lookup k = some promise) :
    s.appliedPromises.lookup k = some promise ∨ k = s.log.length ∧ promise = .client ticket := by
  have hlatest : (s.toMemoryStore.appendLogEntry entry).latestIndex = s.log.length := by
    rw [latestIndex_eq (by simp), appendLogEntry_log, length_append]
    rfl
  have hins := lookup_insertIfAbsent h
  rwa [hlatest] at hins

/-- **A client's promise is made where its entry is.** -/
theorem Effect.of_lookup_client (h : Effect cfg s inp s' out)
    (hlookup : s'.appliedPromises.lookup index = some (.client ticket)) :
    s.appliedPromises.lookup index = some (.client ticket) ∨
      index = s.log.length ∧ ∃ entry, .created ticket s.log entry ∈ s'.history ∧
        Arises cfg s inp s' (.created ticket s.log entry) := by
  cases h with
  | voteGranted hle => rw [grantVote_adoptTerm_eq hle] at hlookup; exact .inl hlookup
  | appendAborted | appendStored => rw [acceptEntries_eq] at hlookup; exact .inl hlookup
  | appendCommitted =>
    rw [acceptEntries_eq] at hlookup
    rcases lookup_insertIfAbsent hlookup with hlookup | ⟨-, heq⟩
    · exact .inl hlookup
    · cases heq
  | @commandStored cmd hl =>
    rcases lookup_storeTask hlookup with hlookup | ⟨hindex, heq⟩
    · exact .inl hlookup
    · cases heq
      exact .inr ⟨hindex, _, mem_cons_self, rfl, rfl, .inl ⟨cmd, rfl, hl, rfl, rfl⟩⟩
  | @stored k _ entry hk =>
    rcases lookup_storeTask hlookup with hlookup | ⟨hindex, heq⟩
    · exact .inl hlookup
    · cases heq
      exact .inr ⟨hindex, entry, mem_cons_self, rfl, rfl, .inr ⟨k, rfl, hk⟩⟩
  | applied =>
    left
    revert hlookup
    refine applyLogs_induction (fun h ↦ h) ?_
    intro t t' ht hnext hlookup
    obtain ⟨entry, p, w, new, -, -, hf, rfl⟩ := applyNext_eq_some hnext
    exact ht (hf.promise hlookup)
  | _ => exact .inl hlookup

/-- **No entry is cut off that a client waits for.** -/
theorem Effect.log_of_promise (h : Effect cfg s inp s' out) (hok : s.KeepsPromises inp)
    (hne : s.log ≠ [])
    (hlookup : s.appliedPromises.lookup index = some (.client ticket))
    (hget : s.log[index]? = some entry) : s'.log[index]? = some entry := by
  obtain ⟨hlt, -⟩ := List.getElem?_eq_some_iff.1 hget
  rcases h.log_cases with heq | ⟨src, req, rfl, hacc, heq⟩ | ⟨_, e, -, heq, -⟩
  · rwa [heq]
  · rw [heq]
    by_cases hconflict : s.toMemoryStore.NoConflict (req.prevLogIndex + 1) req.entries
    · rwa [storeEntries_log hne hconflict, getElem?_append_left hlt]
    · obtain ⟨k, e, hk, hle, hterm, hlog⟩ :=
        storeEntries_log_of_conflict hne hconflict
      have hbelow : index + 1 < req.prevLogIndex + 1 + k :=
        hok hacc (e, req.prevLogIndex + 1 + k) (mk_add_mem_zipIdx_iff_getElem?.2 hk)
          ((le_latestIndex_iff hne).2 hle) hterm ⟨index, .client ticket⟩
          (AList.mem_lookup_iff.1 hlookup) (by simp)
      rw [hlog, getElem?_append_left (by rw [length_take]; omega),
        getElem?_take_of_lt (by omega), hget]
  · rwa [heq, getElem?_append_left hlt]

/-- **Every input keeps the promises.** -/
theorem Effect.promiseInv (h : Effect cfg s inp s' out) (hok : s.KeepsPromises inp)
    (hs : PromiseInv s) : PromiseInv s' := by
  rcases eq_or_ne inp .apply with rfl | hinp
  · cases h
    exact applyLogs_induction hs PromiseInv.applyNext
  have hsub := h.history_subset
  refine
    { log_ne_nil := ?_
      submitted_lt := fun ticket cmd hev ↦ ?_
      submitted_inj := fun ticket cmd cmd' hev hev' ↦ ?_
      task := fun task htask ↦ ?_
      promise := fun index ticket hlookup ↦ ?_
      replied := fun ticket reply hev ↦ ?_ }
  · rcases h.log_cases with heq | ⟨_, req, -, -, heq⟩ | ⟨_, _, -, heq, -⟩
    · exact heq ▸ hs.log_ne_nil
    · exact heq ▸ storeEntries_log_ne_nil hs.log_ne_nil
    · simp [heq]
  · rcases h.of_mem_history hev with hev | ⟨hcmd, rfl⟩
    · exact (hs.submitted_lt _ _ hev).trans_le h.tickets_le.1
    · rw [(h.tickets_le.2 cmd hcmd).1]
      exact Nat.lt_succ_self _
  · -- A future that is handed out now has a number that none has had before.
    rcases h.of_mem_history hev with hev | ⟨hcmd, rfl⟩ <;>
      rcases h.of_mem_history hev' with hev' | ⟨hcmd', hticket⟩
    · exact hs.submitted_inj _ _ _ hev hev'
    · exact absurd (hs.submitted_lt _ _ hev) (hticket ▸ lt_irrefl _)
    · exact absurd (hs.submitted_lt _ _ hev') (lt_irrefl _)
    · exact Input.command.inj (hcmd.symm.trans hcmd')
  · rcases h.mem_storeTasks htask with htask | ⟨-, hticket, cmd, hcmd, hentry⟩
    · exact hsub (hs.task task htask)
    · rw [hticket, hentry]
      exact (h.tickets_le.2 cmd hcmd).2
  · rcases h.of_lookup_client hlookup with hlookup | ⟨rfl, entry, hcreated, -, hlog, hcause⟩
    · obtain ⟨before, entry, hmade, hlen, hget⟩ := hs.promise index ticket hlookup
      exact ⟨before, entry, hmade.mono hsub, hlen, h.log_of_promise hok hs.log_ne_nil hlookup hget⟩
    · refine ⟨s.log, entry, ⟨?_, hcreated⟩, rfl, by simp [hlog]⟩
      rcases hcause with ⟨cmd, hcmd, -, rfl, rfl⟩ | ⟨k, -, hk⟩
      · exact (h.tickets_le.2 cmd hcmd).2
      · exact hsub (hs.task _ (mem_of_getElem? hk))
  · rcases h.of_mem_history hev with hev | happly
    · obtain ⟨before, entry, hmade, happlied⟩ := hs.replied ticket reply hev
      exact ⟨before, entry, hmade.mono hsub, hsub happlied⟩
    · exact absurd happly hinp

end

end Server

/-! ### The run -/

section

variable {cfg : Config σ} {c : Cluster σ}

theorem Reachable.promiseInv (h : Reachable cfg Server.KeepsPromises c) (i : ℕ) :
    (c.servers i).PromiseInv :=
  h.forall_server (fun j ↦ promiseInv_start cfg j)
    (fun hs hok hstep ↦ (handle_effect hstep).promiseInv hok hs) i

/-- **In every run in which no accepted request truncates an entry that a client waits for, a client
is answered with the reply to its own entry.** -/
theorem replies_own (h : Reachable cfg Server.KeepsPromises c) (i : ℕ) : (c.servers i).RepliesOwn :=
  (h.promiseInv i).repliesOwn

end

/-- Server 1 is elected, replicates the entry of a client, and applies it once both others have
acknowledged it. -/
theorem repliesOwn_of_apply : ∃ c, Reachable .trio Server.KeepsPromises c ∧
    .submitted 0 [7] ∈ (c.servers 1).history ∧ .replied 0 [7] ∈ (c.servers 1).history ∧
      (c.servers 1).RepliesOwn := by
  obtain ⟨c, hc, hsubmitted, hreplied⟩ : ∃ c, Reachable .trio Server.KeepsPromises c ∧
      .submitted 0 [7] ∈ (c.servers 1).history ∧ .replied 0 [7] ∈ (c.servers 1).history :=
    exists_reach_of_run (Action.election 1 [2, 3] 2 0 0 ++
        [⟨1, .beginLoop 2⟩, ⟨1, .beginLoop 3⟩, ⟨1, .command [7]⟩,
          ⟨1, .replicate 2⟩, .appends 1 2 ⟨2, 1, 0, 0, 0, [.ofCommand 2 [7]]⟩,
          ⟨1, .replicate 3⟩, .appends 1 3 ⟨2, 1, 0, 0, 0, [.ofCommand 2 [7]]⟩,
          .acks 2 1 2 1, .acks 3 1 2 1, ⟨1, .apply⟩])
      (by decide)
  exact ⟨c, hc, hsubmitted, hreplied, replies_own hc 1⟩

/-- After the truncation, server 3 commits both of its entries and tells server 1, which applies the
second of them where the client's entry was. -/
def answerAfterTruncation : List Action :=
  truncation ++
    [⟨3, .replicate 2⟩, .appends 3 2 ⟨3, 3, 0, 0, 0, [.ofCommand 3 [2], .ofCommand 3 [3]]⟩,
      .acks 2 3 3 2, .acks 1 3 3 1, ⟨3, .apply⟩, ⟨3, .replicate 1⟩,
      .appends 3 1 ⟨3, 3, 1, 3, 1, [.ofCommand 3 [3]]⟩, ⟨1, .apply⟩]

/-- **The client that sent `[1]` is answered with the reply to `[3]`.** -/
theorem replied_to_another : ∃ c, Reachable .trio anyStep c ∧
    .submitted 0 [1] ∈ (c.servers 1).history ∧ .replied 0 [3] ∈ (c.servers 1).history ∧
      ¬ (c.servers 1).RepliesOwn := by
  obtain ⟨c, hc, hsubmitted, hreplied, happlied⟩ : ∃ c, Reachable .trio anyStep c ∧
      .submitted 0 [1] ∈ (c.servers 1).history ∧ .replied 0 [3] ∈ (c.servers 1).history ∧
        (c.servers 1).history.all (fun
          | .applied _ entry _ => entry.command ≠ [1]
          | _ => true) = true :=
    exists_reach_of_run answerAfterTruncation (by decide)
  refine ⟨c, hc, hsubmitted, hreplied, fun h ↦ ?_⟩
  obtain ⟨before, entry, hcmd, -, hev⟩ := h 0 [1] [3] hsubmitted hreplied
  have hne := all_eq_true.1 happlied _ hev
  exact of_decide_eq_true hne hcmd

end Xzero.Raft
