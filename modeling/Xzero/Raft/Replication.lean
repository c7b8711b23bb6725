import Xzero.Library.Agreement
import Xzero.Raft.Election

/-!
# What replication sends, and what it stores

The part of log matching that needs no election. In a run in which no accepted request truncates
(`KeepsLog`) and no term wraps, every log only grows, and **a request in flight still describes its
sender's log**, however long it has been on its way (`ReadFrom`, `RequestInv`): the previous entry
is there with the term the request states, and the entries follow it. The one exception are
heartbeats sent from past the end of the log, which state term `0` and carry nothing.
-/

namespace Xzero.Raft

open List MemoryStore Server Cluster

variable {σ : Type}

namespace Server

/-! ### Reading the log -/

section

variable {cfg : Config σ} {s s' : Server σ} {inp : Input} {out : List Packet}

theorem loadLogEntries_isPrefix (hne : s.log ≠ []) :
    ∀ {n index totalSize : ℕ} {entries : List LogEntry},
      loadLogEntries cfg s n index totalSize = some entries → entries <+: s.log.drop index := by
  intro n
  induction n with
  | zero =>
    rintro index totalSize entries ⟨⟩
    exact nil_prefix
  | succ n ih =>
    intro index totalSize entries h
    rw [loadLogEntries, getLogEntry_eq hne] at h
    split at h
    · cases h
    · next e hentry =>
      obtain ⟨hlt, he⟩ := List.getElem?_eq_some_iff.1 hentry
      split at h
      · cases h
        exact nil_prefix
      · split at h
        · cases h
        · next rest hrest =>
          cases h
          rw [drop_eq_getElem_cons hlt, he]
          exact cons_prefix_cons.2 ⟨rfl, ih hrest⟩

theorem acceptEntries_log (s : Server σ) (req : AppendEntriesRequest) :
    (s.acceptEntries req).log = (s.toMemoryStore.storeEntries req).log := by
  rw [acceptEntries_eq]

/-- How an input changes the log: not at all, by an accepted request, or by an entry made for a
client. -/
theorem Effect.log_cases (h : Effect cfg s inp s' out) : s'.log = s.log ∨
      (∃ src req, inp = .receive src (.appendEntriesRequest req) ∧ s.Accepts req ∧
        s'.log = (s.toMemoryStore.storeEntries req).log) ∨
      ∃ ticket entry, .created ticket s.log entry ∈ s'.history ∧ s'.log = s.log ++ [entry] ∧
        ((∃ cmd, inp = .command cmd ∧ s.state = .leader ∧ ticket = s.tickets ∧
            entry = .ofCommand s.currentTerm cmd) ∨
          ∃ k, inp = .store k ∧ s.storeTasks[k]? = some (entry, ticket)) := by
  cases h with
  | voteGranted hle => rw [grantVote_adoptTerm_eq hle]; exact .inl rfl
  | @appendAborted src req hacc | @appendCommitted src req hacc | @appendStored src req hacc =>
    exact .inr (.inl ⟨src, req, rfl, hacc, acceptEntries_log s req⟩)
  | @commandStored cmd hl =>
    exact .inr (.inr ⟨s.tickets, _, mem_cons_self, rfl, .inl ⟨cmd, rfl, hl, rfl, rfl⟩⟩)
  | @stored k ticket entry hk =>
    exact .inr (.inr ⟨ticket, entry, mem_cons_self, rfl, .inr ⟨k, rfl, hk⟩⟩)
  | applied =>
    obtain ⟨m, p, w, l, new, heq, -⟩ := applyLogs_eq cfg s
    rw [heq]
    exact .inl rfl
  | _ => exact .inl rfl

theorem Effect.mem_storeTasks (h : Effect cfg s inp s' out) {task : LogEntry × ℕ}
    (htask : task ∈ s'.storeTasks) :
    task ∈ s.storeTasks ∨ s.state = .leader ∧ task.2 = s.tickets ∧
      ∃ cmd, inp = .command cmd ∧ task.1 = .ofCommand s.currentTerm cmd := by
  cases h with
  | voteGranted hle => rw [grantVote_adoptTerm_eq hle] at htask; exact .inl htask
  | appendAborted | appendCommitted | appendStored =>
    rw [acceptEntries_eq] at htask
    exact .inl htask
  | @commandDelayed cmd hl =>
    rcases mem_append.1 htask with htask | htask
    · exact .inl htask
    · obtain rfl := mem_singleton.1 htask
      exact .inr ⟨hl, rfl, cmd, rfl, rfl⟩
  | stored => exact .inl (mem_of_mem_eraseIdx htask)
  | applied =>
    obtain ⟨m, p, w, l, new, heq, -⟩ := applyLogs_eq cfg s
    rw [heq] at htask
    exact .inl htask
  | _ => exact .inl htask

/-- Replication requests are sent by the rounds of a worker, from its `nextIndex` on. -/
theorem Effect.appendRequest_of_mem_out (h : Effect cfg s inp s' out) {p : Packet}
    {req : AppendEntriesRequest} (hp : p ∈ out) (hmsg : p.msg = .appendEntriesRequest req) :
    inp = .replicate p.dst ∧ p.src = s.id ∧ p.dst ∈ s.loops ∧ s'.toMemoryStore = s.toMemoryStore ∧
      ∃ entries, req = s.appendEntriesRequest (s.followerState p.dst).nextIndex entries ∧
        ((s.latestIndex < (s.followerState p.dst).nextIndex ∧ entries = []) ∨
          (s.followerState p.dst).nextIndex ≤ s.latestIndex ∧
            s.tryLoadLogEntries cfg (s.followerState p.dst).nextIndex = some entries) := by
  cases h with
  | heartbeat hloop hlt =>
    obtain rfl := mem_singleton.1 hp
    cases hmsg
    exact ⟨rfl, rfl, hloop, rfl, [], rfl, .inl ⟨hlt, rfl⟩⟩
  | @replicated peer entries hloop hle hload =>
    obtain rfl := mem_singleton.1 hp
    cases hmsg
    exact ⟨rfl, rfl, hloop, rfl, entries, rfl, .inr ⟨hle, hload⟩⟩
  | candidacy =>
    obtain ⟨peer, -, rfl⟩ := mem_map.1 hp
    cases hmsg
  | voteStale | voteRefused | voteGranted | appendRejected | appendStored | resumed =>
    rw [mem_singleton.1 hp] at hmsg
    cases hmsg
  | _ => cases hp

end

/-! ### The workers -/

/-- There is bookkeeping for the peer, and its next entry is not the placeholder. -/
def Tracks (followers : AList fun _ : ℕ ↦ FollowerState) (peer : ℕ) : Prop :=
  ∃ fs, followers.lookup peer = some fs ∧ 1 ≤ fs.nextIndex

section

variable {followers : AList fun _ : ℕ ↦ FollowerState} {peer q : ℕ} {fs : FollowerState}

theorem tracks_insert_self (hfs : 1 ≤ fs.nextIndex) : Tracks (followers.insert peer fs) peer :=
  ⟨fs, AList.lookup_insert followers, hfs⟩

theorem Tracks.insert (h : Tracks followers peer) (hfs : 1 ≤ fs.nextIndex) :
    Tracks (followers.insert q fs) peer := by
  rcases eq_or_ne peer q with rfl | hne
  · exact tracks_insert_self hfs
  · obtain ⟨fs', hlookup, hpos⟩ := h
    exact ⟨fs', by rwa [AList.lookup_insert_ne hne], hpos⟩

theorem Tracks.insertIfAbsent (h : Tracks followers peer) :
    Tracks (insertIfAbsent followers q fs) peer := by
  rw [Raft.insertIfAbsent]
  split
  · exact h
  · next hq =>
    obtain ⟨fs', hlookup, hpos⟩ := h
    have hne : peer ≠ q := by
      rintro rfl
      exact hq (AList.lookup_isSome.1 (by rw [hlookup]; rfl))
    exact ⟨fs', by rwa [AList.lookup_insert_ne hne], hpos⟩

theorem Tracks.foldl_insertIfAbsent (l : List ℕ) :
    ∀ {followers : AList fun _ : ℕ ↦ FollowerState}, Tracks followers peer →
      Tracks (l.foldl (Raft.insertIfAbsent · · fs) followers) peer := by
  induction l with
  | nil => exact fun h ↦ h
  | cons q l ih => exact fun h ↦ ih h.insertIfAbsent

theorem Tracks.followerState {s : Server σ} (h : Tracks s.followers peer) :
    1 ≤ (s.followerState peer).nextIndex := by
  obtain ⟨fs, hlookup, hpos⟩ := h
  rwa [Server.followerState, hlookup]

end

/-- Workers are for peers, and those that have begun have bookkeeping. -/
structure WorkerInv (cfg : Config σ) (s : Server σ) : Prop where
  loopTasks : ∀ peer ∈ s.loopTasks, peer ∈ cfg.peers s.id
  loops : ∀ peer ∈ s.loops, peer ∈ cfg.peers s.id
  tracks : ∀ peer ∈ s.loops, Tracks s.followers peer

theorem workerInv_start (cfg : Config σ) (id : ℕ) : WorkerInv cfg (new cfg id).start where
  loopTasks _ h := absurd h not_mem_nil
  loops _ h := absurd h not_mem_nil
  tracks _ h := absurd h not_mem_nil

variable {cfg : Config σ} {s s' : Server σ} {inp : Input} {out : List Packet}

theorem Effect.workerInv
    (h : Effect cfg s inp s' out) (hw : WorkerInv cfg s) : WorkerInv cfg s' := by
  obtain ⟨htasks, hloops, htracks⟩ := hw
  cases h with
  | voteGranted hle =>
    rw [grantVote_adoptTerm_eq hle]
    exact ⟨htasks, hloops, htracks⟩
  | elected =>
    refine ⟨fun peer hp ↦ ?_, hloops, htracks⟩
    rcases mem_append.1 hp with hp | hp
    · exact htasks peer hp
    · exact hp
  | appendAborted | appendCommitted | appendStored =>
    rw [acceptEntries_eq]
    exact ⟨htasks, hloops, htracks⟩
  | responseRecorded | responseCommitted =>
    exact ⟨htasks, hloops, fun peer hp ↦ (htracks peer hp).insert (Nat.le_add_left 1 _)⟩
  | commandStored | stored =>
    exact ⟨htasks, hloops, fun peer hp ↦ (htracks peer hp).foldl_insertIfAbsent _⟩
  | @loopBegun peer hp =>
    refine ⟨fun q hq ↦ htasks q (mem_of_mem_erase hq), fun q hq ↦ ?_, fun q hq ↦ ?_⟩
    · rcases mem_cons.1 hq with rfl | hq
      · exact htasks q hp
      · exact hloops q hq
    · rcases mem_cons.1 hq with rfl | hq
      · exact tracks_insert_self (Nat.le_add_left 1 _)
      · exact (htracks q hq).insert (Nat.le_add_left 1 _)
  | replicateFailed hp =>
    exact ⟨htasks, hloops, fun q hq ↦ (htracks q hq).insert (htracks _ hp).followerState⟩
  | heartbeat hp | replicated hp =>
    refine ⟨htasks, hloops, fun q hq ↦ (htracks q hq).insert ?_⟩
    exact Nat.le_add_right_of_le (htracks _ hp).followerState
  | applied =>
    obtain ⟨m, p, w, l, new, heq, -⟩ := applyLogs_eq cfg s
    rw [heq]
    exact ⟨htasks, hloops, htracks⟩
  | _ => exact ⟨htasks, hloops, htracks⟩

/-! ### Logs that only grow -/

/-- An accepted request disagrees with nothing in the log. -/
def KeepsLog (s : Server σ) : Input → Prop
  | .receive _ (.appendEntriesRequest req) =>
    s.Accepts req → s.toMemoryStore.NoConflict (req.prevLogIndex + 1) req.entries
  | _ => True

instance (s : Server σ) : (inp : Input) → Decidable (s.KeepsLog inp)
  | .receive _ (.appendEntriesRequest _) => inferInstanceAs (Decidable (_ → _))
  | .receive _ (.voteRequest _) | .receive _ (.voteResponse _)
  | .receive _ (.appendEntriesResponse _) | .timeout | .command _ | .store _ | .beginLoop _
  | .replicate _ | .apply | .resume => inferInstanceAs (Decidable True)

/-- Terms do not wrap, and logs are not truncated. -/
def AppendOnly (s : Server σ) (inp : Input) : Prop := s.NoWrap inp ∧ s.KeepsLog inp

instance (s : Server σ) (inp : Input) : Decidable (s.AppendOnly inp) :=
  inferInstanceAs (Decidable (_ ∧ _))

/-- The log begins with the placeholder; its other entries, and those still to be appended, are of
terms between one and the current term. -/
structure LogInv (s : Server σ) : Prop where
  head : s.log[0]? = some .empty
  currentTerm : 1 ≤ s.currentTerm
  term : ∀ {k : ℕ} {e : LogEntry}, 1 ≤ k → s.log[k]? = some e → 1 ≤ e.term ∧ e.term ≤ s.currentTerm
  task : ∀ task ∈ s.storeTasks, 1 ≤ task.1.term ∧ task.1.term ≤ s.currentTerm

namespace LogInv

variable {s : Server σ}

theorem log_ne_nil (h : LogInv s) : s.log ≠ [] := by
  intro hnil
  have hhead := h.head
  rw [hnil] at hhead
  cases hhead

theorem length_pos (h : LogInv s) : 0 < s.log.length := length_pos_of_ne_nil h.log_ne_nil

theorem eq_zero_of_getLogTerm (h : LogInv s) {k : ℕ} (hk : k < s.log.length)
    (hterm : s.getLogTerm k = 0) : k = 0 := by
  by_contra hne
  have hget : s.log[k]? = some (s.log[k]) := getElem?_eq_getElem hk
  have hpos := (h.term (by omega) hget).1
  rw [getLogTerm_of_getElem? h.log_ne_nil hget] at hterm
  omega

end LogInv

theorem logInv_start (cfg : Config σ) (id : ℕ) : LogInv (new cfg id).start where
  head := rfl
  currentTerm := le_refl 1
  term {k e} hk he := by
    obtain ⟨k, rfl⟩ := Nat.exists_eq_succ_of_ne_zero (Nat.pos_iff_ne_zero.1 hk)
    cases he
  task _ h := absurd h not_mem_nil

theorem Effect.log_isPrefix
    (h : Effect cfg s inp s' out) (hok : s.KeepsLog inp) (hne : s.log ≠ []) : s.log <+: s'.log := by
  rcases h.log_cases with heq | ⟨src, req, rfl, hacc, hlog⟩ | ⟨ticket, entry, -, hlog, -⟩
  · rw [heq]
  · rw [hlog, storeEntries_log hne (hok hacc)]
    exact prefix_append _ _
  · rw [hlog]
    exact prefix_append _ _

end Server

/-! ### Requests in flight -/

/-- The request describes the log: its previous entry is there, under the term it states, and its
entries follow; or it is a heartbeat from past the end of the log. -/
def AppendEntriesRequest.ReadFrom (req : AppendEntriesRequest) (log : List LogEntry) : Prop :=
  (∃ e, log[req.prevLogIndex]? = some e ∧ e.term = req.prevLogTerm ∧
      req.entries <+: log.drop (req.prevLogIndex + 1)) ∨
    1 ≤ req.prevLogIndex ∧ req.prevLogTerm = 0 ∧ req.entries = []

theorem AppendEntriesRequest.ReadFrom.mono {req : AppendEntriesRequest} {log log' : List LogEntry}
    (h : req.ReadFrom log) (hlog : log <+: log') : req.ReadFrom log' := by
  rcases h with ⟨e, hget, hterm, hentries⟩ | h
  · exact .inl ⟨e, hlog.getElem?_of_some hget, hterm, hentries.trans (hlog.drop _)⟩
  · exact .inr h

/-- A request in flight from one member to another. -/
structure RequestInv (cfg : Config σ) (c : Cluster σ) (src dst : ℕ) (req : AppendEntriesRequest) :
    Prop where
  src_mem : src ∈ cfg.members
  dst_mem : dst ∈ cfg.peers src
  term_le : req.term ≤ (c.servers src).currentTerm
  readFrom : req.ReadFrom (c.servers src).log
  bounded : ∀ e ∈ req.entries, 1 ≤ e.term ∧ e.term ≤ req.term

/-- What replication can rely on. -/
structure ReplicationInv (cfg : Config σ) (c : Cluster σ) : Prop where
  id : ∀ i, (c.servers i).id = i
  worker : ∀ i, (c.servers i).WorkerInv cfg
  log : ∀ i, (c.servers i).LogInv
  request : ∀ p ∈ c.network, ∀ req, p.msg = .appendEntriesRequest req →
    RequestInv cfg c p.src p.dst req

section

variable {cfg : Config σ} {c : Cluster σ} {s s' : Server σ} {act : Action} {inp : Input}
  {out : List Packet}

theorem replicationInv_start (cfg : Config σ) : ReplicationInv cfg (.start cfg) where
  id _ := rfl
  worker := workerInv_start cfg
  log := logInv_start cfg
  request _ hp := absurd hp not_mem_nil

variable {nextIndex : ℕ} {entries : List LogEntry}

theorem Server.readFrom_appendEntriesRequest (hlog : s.LogInv) (hpos : 1 ≤ nextIndex)
    (hload : (s.latestIndex < nextIndex ∧ entries = []) ∨
      nextIndex ≤ s.latestIndex ∧ s.tryLoadLogEntries cfg nextIndex = some entries) :
    (s.appendEntriesRequest nextIndex entries).ReadFrom s.log := by
  obtain ⟨n, rfl⟩ := Nat.exists_eq_add_of_le' hpos
  have hne := hlog.log_ne_nil
  rcases lt_or_ge n s.log.length with hlt | hge
  · refine .inl ⟨s.log[n], ?_, ?_, ?_⟩
    · simp [appendEntriesRequest]
    · exact (getLogTerm_of_getElem? hne (getElem?_eq_getElem hlt)).symm
    · rcases hload with ⟨-, rfl⟩ | ⟨-, hload⟩
      · exact nil_prefix
      · exact loadLogEntries_isPrefix hne hload
  · have hlen := hlog.length_pos
    rcases hload with ⟨-, rfl⟩ | ⟨hle, -⟩
    · refine .inr ⟨?_, ?_, rfl⟩
      · simp only [appendEntriesRequest, decr_succ]
        omega
      · simp only [appendEntriesRequest, decr_succ]
        rw [getLogTerm_eq hne, getElem?_eq_none hge]
        rfl
    · rw [le_latestIndex_iff hne] at hle
      omega

theorem Server.bounded_appendEntriesRequest (hlog : s.LogInv)
    (hread : (s.appendEntriesRequest nextIndex entries).ReadFrom s.log) :
    ∀ e ∈ entries, 1 ≤ e.term ∧ e.term ≤ s.currentTerm := by
  intro e he
  rcases hread with ⟨-, -, -, hentries⟩ | ⟨-, -, hnil⟩
  · obtain ⟨k, hk⟩ := mem_iff_getElem?.1 (hentries.subset he)
    rw [getElem?_drop] at hk
    exact hlog.term (by omega) hk
  · rw [show entries = [] from hnil] at he
    cases he

section

variable {src : ℕ} {req : AppendEntriesRequest}
  (h : s.Effect cfg (.receive src (.appendEntriesRequest req)) s' out) (hacc : s.Accepts req)
include h hacc

theorem Server.Effect.currentTerm_of_accepts : s'.currentTerm = req.term := by
  cases h with
  | appendRejected hna => exact absurd hacc hna
  | appendAborted | appendCommitted | appendStored => exact acceptEntries_currentTerm hacc.1

theorem Server.Effect.log_of_accepts : s'.log = (s.toMemoryStore.storeEntries req).log := by
  cases h with
  | appendRejected hna => exact absurd hacc hna
  | appendAborted | appendCommitted | appendStored => exact acceptEntries_log s req

end

theorem Server.Effect.logInv (h : s.Effect cfg inp s' out) (hok : s.AppendOnly inp)
    (hreq : ∀ src req, inp = .receive src (.appendEntriesRequest req) →
      ∀ e ∈ req.entries, 1 ≤ e.term ∧ e.term ≤ req.term) (hlog : s.LogInv) : s'.LogInv := by
  have hne := hlog.log_ne_nil
  have hterm := h.currentTerm_le hok.1
  have hprefix := h.log_isPrefix hok.2 hne
  -- An entry of the new log is one of the old log, or has been appended within bounds.
  have hmem : ∀ {k e}, 1 ≤ k → s'.log[k]? = some e → 1 ≤ e.term ∧ e.term ≤ s'.currentTerm := by
    have hold : ∀ {k e}, 1 ≤ k → s.log[k]? = some e → 1 ≤ e.term ∧ e.term ≤ s'.currentTerm :=
      fun hk he ↦ ⟨(hlog.term hk he).1, le_trans (hlog.term hk he).2 hterm⟩
    intro k e hk he
    rcases lt_or_ge k s.log.length with hlt | hge
    · exact hold hk (IsPrefix.getElem?_of_lt hprefix he hlt)
    rcases h.log_cases with heq | ⟨src, req, rfl, hacc, heq⟩ | ⟨ticket, entry, -, heq, hfrom⟩
    · exact hold hk (heq ▸ he)
    · rw [heq, storeEntries_log hne (hok.2 hacc), getElem?_append_right hge] at he
      rw [h.currentTerm_of_accepts hacc]
      exact hreq src req rfl e (mem_of_mem_drop (mem_of_getElem? he))
    · rw [heq, getElem?_append_right hge] at he
      obtain rfl := mem_singleton.1 (mem_of_getElem? he)
      rcases hfrom with ⟨cmd, -, -, -, rfl⟩ | ⟨n, -, htask⟩
      · exact ⟨hlog.currentTerm, hterm⟩
      · have hbound := hlog.task _ (mem_of_getElem? htask)
        exact ⟨hbound.1, le_trans hbound.2 hterm⟩
  refine ⟨?_, le_trans hlog.currentTerm hterm, hmem, ?_⟩
  · exact hprefix.getElem?_of_some hlog.head
  · intro task htask
    rcases h.mem_storeTasks htask with htask | ⟨-, -, cmd, -, heq⟩
    · exact ⟨(hlog.task task htask).1, le_trans (hlog.task task htask).2 hterm⟩
    · rw [heq]
      exact ⟨hlog.currentTerm, hterm⟩

namespace ReplicationInv

theorem delivered (h : ReplicationInv cfg c) (ht : c.Takes cfg act s' out) {src : ℕ}
    {req : AppendEntriesRequest} (hinp : act.input = .receive src (.appendEntriesRequest req)) :
    RequestInv cfg c src act.actor req :=
  h.request ⟨src, act.actor, .appendEntriesRequest req⟩
    (ht.deliver _ (by rw [Action.packet, hinp]; rfl)) req rfl

theorem agreeTo_zero (h : ReplicationInv cfg c) (i j : ℕ) :
    AgreeTo (c.servers i).log (c.servers j).log 0 := by
  have hhead : ∀ i, [.empty] <+: (c.servers i).log := fun i ↦
    prefix_iff_getElem?.2 fun n hn ↦ by
      obtain rfl : n = 0 := by simpa using hn
      exact (h.log i).head
  exact ⟨[.empty], rfl, hhead i, hhead j⟩

section

variable (h : ReplicationInv cfg c) (ht : c.Takes cfg act s' out)
  (hok : (c.servers act.actor).AppendOnly act.input)
include h ht hok

theorem log_isPrefix (j : ℕ) : (c.servers j).log <+: ((c.after act s' out).servers j).log :=
  forall_after (fun _ ↦ prefix_refl _)
    (ht.effect.log_isPrefix hok.2 (h.log _).log_ne_nil) j

/-- **Replication keeps what it relies on.** -/
theorem after : ReplicationInv cfg (c.after act s' out) where
  id j := (forall_after (R := fun s s' ↦ s'.id = s.id) (fun _ ↦ rfl)
    ht.effect.id_eq j).trans (h.id j)
  worker j := forall_after (fun _ hw ↦ hw) ht.effect.workerInv j (h.worker j)
  log j := by
    refine forall_after (fun _ hl ↦ hl) ?_ j (h.log j)
    exact ht.effect.logInv hok fun src req hinp ↦ (h.delivered ht hinp).bounded
  request p hp req hmsg := by
    rcases mem_append.1 hp with hp | hp
    · obtain ⟨hsrc, hdst, hterm, hread, hbound⟩ :=
        h.request p (Action.mem_of_mem_consume hp) req hmsg
      exact ⟨hsrc, hdst, le_trans hterm (ht.grow hok.1 p.src).2,
        hread.mono (h.log_isPrefix ht hok p.src), hbound⟩
    · obtain ⟨-, hsrc, hloop, hstore, entries, rfl, hload⟩ :=
        ht.effect.appendRequest_of_mem_out hp hmsg
      have hlog := h.log act.actor
      have hread := readFrom_appendEntriesRequest hlog
        ((h.worker _).tracks _ hloop).followerState hload
      have hdst := (h.worker _).loops _ hloop
      rw [h.id] at hsrc hdst
      rw [hsrc]
      refine ⟨ht.mem, hdst, ?_, ?_, bounded_appendEntriesRequest hlog hread⟩
      · rw [after_servers_self, hstore]
        exact le_refl _
      · rw [after_servers_self, hstore]
        exact hread

end

end ReplicationInv

end

end Xzero.Raft
