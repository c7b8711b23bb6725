import Mathlib.Data.List.AList
import Xzero.Raft.Storage

/-!
# The server

`raft::Server` of `xzero/raft/Server.cc`, one function for each method. Methods that hold
`serverLock_` are atomic here; what the source hands to other threads is state of the server that
a later input picks up:

* `storeTasks` — the closures `MemoryStore::appendLogEntryAsync` gives to its executor, when it
  has one;
* `loopTasks`, `loops` — the `replicationLoop` workers, before and after they have initialized
  their `FollowerState`. They run for as long as the server does, not for as long as it leads;
* `waiting` — the `AppendEntriesRequest` handler blocked in `applied.wait()`. It keeps the lock,
  so until the promise is fulfilled no other handler and no timeout runs, while clients, workers
  and `applyLogs` do.

Time is left out: a timer may fire whenever its handler can run. `aborted` records a failed
`assert`, which ends the process unless the build defines `NDEBUG`. `history` is not state of the
program but a record of what it did, most recent first, for statements about whole runs.
-/

namespace Xzero.Raft

/-- The role a server plays. -/
inductive ServerState
  | follower
  | candidate
  | leader
  deriving DecidableEq, Repr

/-- What a leader keeps for each follower. -/
structure FollowerState where
  /-- The index of the next entry to send. -/
  nextIndex : ℕ
  /-- The highest index the follower is believed to hold. -/
  matchIndex : ℕ
  deriving DecidableEq, Repr

/-- The value-initialized `FollowerState` that `followers_[id]` inserts for a new key. -/
def FollowerState.zero : FollowerState := ⟨0, 0⟩

/-- Who waits for an entry to be applied: the client that was given the numbered future, or only
the `AppendEntriesRequest` handler. -/
inductive Promise
  | client (ticket : ℕ)
  | handler
  deriving DecidableEq, Repr

/-- The blocked `AppendEntriesRequest` handler. -/
structure Waiting where
  /-- The peer that is owed the response. -/
  peer : ℕ
  /-- The index whose application is awaited. -/
  index : ℕ
  /-- Whether the promise has been fulfilled. -/
  ready : Bool
  deriving DecidableEq, Repr

/-- What a server is observed to do. Logs are recorded as they stand at that moment. -/
inductive Event
  | candidacy (term : ℕ) (log : List LogEntry)
  /-- It returned a `VoteResponse` with `voteGranted`. -/
  | voted (term candidate : ℕ) (log : List LogEntry)
  /-- It ran `setupLeader`. -/
  | elected (term : ℕ) (log : List LogEntry)
  /-- It handed an `AppendEntriesRequest` to the transport. -/
  | replicated (peer : ℕ) (req : AppendEntriesRequest)
  /-- It assigned `commitIndex_`. -/
  | committed (role : ServerState) (term index : ℕ) (log : List LogEntry)
  /-- A client submitted a command and was given a future. -/
  | submitted (ticket : ℕ) (cmd : Command)
  /-- The future was failed with `RaftError::NotLeading`. -/
  | rejected (ticket : ℕ)
  /-- The entry made for a future was appended after the given log. -/
  | created (ticket : ℕ) (before : List LogEntry) (entry : LogEntry)
  /-- The state machine applied an entry and returned a reply. -/
  | applied (index : ℕ) (entry : LogEntry) (reply : Reply)
  /-- The future was fulfilled with a reply. -/
  | replied (ticket : ℕ) (reply : Reply)
  deriving DecidableEq, Repr

/-- What the servers of one cluster share: the members `discovery_` lists, the settings they are
built with, and the state machine they replicate. -/
structure Config (σ : Type) where
  /-- `discovery_->listMembers()`. -/
  members : List ℕ
  /-- The members are the keys of a map. -/
  nodup_members : members.Nodup
  /-- The number of commands to batch in a request. -/
  maxCommandsPerMessage : ℕ := 5
  /-- The number of command bytes to batch in a request. -/
  maxCommandsSizePerMessage : ℕ := 1024
  /-- Whether the stores were given an executor, which then appends client entries later. -/
  delayedStore : Bool := false
  /-- Whether assertions are compiled out. -/
  ndebug : Bool := true
  /-- The state machine before any command. -/
  machine : σ
  /-- `StateMachine::applyCommand`. -/
  applyCommand : σ → Command → Reply × σ

namespace Config

variable {σ : Type} (cfg : Config σ)

/-- The members other than the given server. -/
def peers (id : ℕ) : List ℕ := cfg.members.filter (· ≠ id)

def quorum : ℕ := cfg.members.length / 2 + 1

theorem nodup_peers (id : ℕ) : (cfg.peers id).Nodup := cfg.nodup_members.filter _

@[simp] theorem mem_peers {id p : ℕ} : p ∈ cfg.peers id ↔ p ∈ cfg.members ∧ p ≠ id := by
  simp [peers]

/-- Three members that replicate an echo, for concrete runs. -/
def trio : Config Unit where
  members := [1, 2, 3]
  nodup_members := by decide
  machine := ()
  applyCommand _ cmd := (cmd, ())

/-- Four members, in a build with assertions. -/
def quartet : Config Unit where
  members := [1, 2, 3, 4]
  nodup_members := by decide
  ndebug := false
  machine := ()
  applyCommand _ cmd := (cmd, ())

end Config

/-- `std::unordered_map::insert`, and `operator[]` with a default: an existing key keeps its
value. -/
def insertIfAbsent {β : Type} (m : AList fun _ : ℕ ↦ β) (k : ℕ) (b : β) : AList fun _ : ℕ ↦ β :=
  if k ∈ m then m else m.insert k b

/-- A server with its store. -/
structure Server (σ : Type) extends MemoryStore where
  id : ℕ
  /-- The server it takes for the leader. -/
  currentLeaderId : ℕ
  state : ServerState
  running : Bool
  /-- The highest index known to be committed. -/
  commitIndex : ℕ
  lastApplied : ℕ
  /-- Votes received since it last stood for election. -/
  votesGranted : ℕ
  /-- The followers it has bookkeeping for. -/
  followers : AList fun _ : ℕ ↦ FollowerState
  /-- The promises to fulfil when an index is applied. -/
  appliedPromises : AList fun _ : ℕ ↦ Promise
  machine : σ
  /-- The number of futures handed out. -/
  tickets : ℕ
  /-- Appends handed to the store's executor, with the future each belongs to. -/
  storeTasks : List (LogEntry × ℕ)
  /-- Replication workers that have not begun. -/
  loopTasks : List ℕ
  loops : List ℕ
  /-- The handler that holds the lock, if one does. -/
  waiting : Option Waiting
  /-- Whether an assertion has failed. -/
  aborted : Bool
  history : List Event

namespace Server

variable {σ : Type} (cfg : Config σ)

def new (id : ℕ) : Server σ where
  toMemoryStore := .new
  id := id
  currentLeaderId := 0
  state := .follower
  running := false
  commitIndex := 0
  lastApplied := 0
  votesGranted := 0
  followers := ∅
  appliedPromises := ∅
  machine := cfg.machine
  tickets := 0
  storeTasks := []
  loopTasks := []
  loops := []
  waiting := none
  aborted := false
  history := []

/-- `start()`: the store is initialized and the timer armed. -/
def start (s : Server σ) : Server σ :=
  { s with toMemoryStore := s.toMemoryStore.initializeStore, running := true }

def observe (s : Server σ) (ev : Event) : Server σ := { s with history := ev :: s.history }

/-! ### Elections -/

/-- Stand for election in the next term, vote for oneself, and ask every peer. The own vote is
recorded but not counted: `votesGranted_` starts at zero. -/
def sendVoteRequest (s : Server σ) : Server σ × List Packet :=
  let term := wrap (s.currentTerm + 1)
  let req : VoteRequest :=
    { term := term
      candidateId := s.id
      lastLogIndex := s.latestIndex
      lastLogTerm := s.getLogTerm s.latestIndex }
  ({ s with
      toMemoryStore := (s.toMemoryStore.setCurrentTerm term).setVotedFor s.id term
      votesGranted := 0
      history := .candidacy term s.log :: s.history },
    (cfg.peers s.id).map fun peer ↦ ⟨s.id, peer, .voteRequest req⟩)

/-- The election timer fires. A leader's timer is cancelled, so the last case is asserted not to
happen. -/
def onTimeout (s : Server σ) : Server σ × List Packet :=
  if s.running then
    match s.state with
    | .follower => sendVoteRequest cfg { s with state := .candidate }
    | .candidate => sendVoteRequest cfg s
    | .leader => ({ s with aborted := !cfg.ndebug }, [])
  else (s, [])

/-- Step down into a newer term. The workers and pending promises of a former leadership stay. -/
def convertToFollower (s : Server σ) (newLeaderId leaderTerm : ℕ) : Server σ :=
  { s with
    toMemoryStore := (s.toMemoryStore.setCurrentTerm leaderTerm).clearVotedFor
    state := .follower
    currentLeaderId := newLeaderId }

/-- Adopt a request's term if it is newer. -/
def adoptTerm (s : Server σ) (leaderId term : ℕ) : Server σ :=
  if s.currentTerm < term then s.convertToFollower leaderId term else s

/-- Take the lead: one replication worker is started for each peer. -/
def setupLeader (s : Server σ) : Server σ :=
  { s with
    currentLeaderId := s.id
    state := .leader
    loopTasks := s.loopTasks ++ cfg.peers s.id
    history := .elected s.currentTerm s.log :: s.history }

/-- Record the vote for the requesting candidate. The second component of the stored vote is the
candidate's last log term. -/
def grantVote (s : Server σ) (req : VoteRequest) : Server σ × VoteResponse :=
  ({ s with
      toMemoryStore := s.toMemoryStore.setVotedFor req.candidateId req.lastLogTerm
      history := .voted s.currentTerm req.candidateId s.log :: s.history },
    ⟨s.currentTerm, true⟩)

/-- Vote at most for one candidate a term, and for that one again only when its last log term has
grown. The candidate's log is not compared with the voter's own. -/
def castVote (s : Server σ) (req : VoteRequest) : Server σ × VoteResponse :=
  match s.votedFor with
  | none => s.grantVote req
  | some (id, term) =>
    if req.candidateId = id ∧ term < req.lastLogTerm then s.grantVote req
    else (s, ⟨s.currentTerm, false⟩)

/-- `handleRequest(VoteRequest)`. -/
def handleVoteRequest (s : Server σ) (req : VoteRequest) : Server σ × VoteResponse :=
  if req.term < s.currentTerm then (s, ⟨s.currentTerm, false⟩)
  else (s.adoptTerm req.candidateId req.term).castVote req

/-- `handleResponse(VoteResponse)`: the response's term is not looked at. -/
def handleVoteResponse (s : Server σ) (resp : VoteResponse) : Server σ :=
  if s.state = .leader then s
  else if resp.voteGranted then
    if cfg.quorum ≤ s.votesGranted + 1 ∧ s.state = .candidate then
      setupLeader cfg { s with votesGranted := s.votesGranted + 1 }
    else { s with votesGranted := s.votesGranted + 1 }
  else s

end Server

/-! ### Replication, the follower's side -/

namespace MemoryStore

/-- Walk over the request's entries and the log side by side, from `index` on. At the first entry
whose term differs the log is truncated. Returned with the store are the entries from there, or
from the end of the log, on. -/
def resolveConflicts (st : MemoryStore) : ℕ → List LogEntry → MemoryStore × List LogEntry
  | _, [] => (st, [])
  | index, entry :: entries =>
    if st.latestIndex < index then (st, entry :: entries)
    else if entry.term ≠ st.getLogTerm index then
      (st.truncateLog (index - 1), entry :: entries)
    else st.resolveConflicts (index + 1) entries

/-- Append what `resolveConflicts` left over, which is what the source's loop up to `lastIndex`
ranges over. -/
def storeEntries (st : MemoryStore) (req : AppendEntriesRequest) : MemoryStore :=
  let r := st.resolveConflicts (req.prevLogIndex + 1) req.entries
  r.2.foldl appendLogEntry r.1

end MemoryStore

namespace Server

variable {σ : Type} (cfg : Config σ)

/-- Assign `commitIndex_` on a follower and wait for the entry there to be applied. If a client of
this server still has a promise at that index, the handler waits for that one. -/
def advanceCommit (s : Server σ) (peer index : ℕ) : Server σ :=
  { s with
    commitIndex := index
    appliedPromises := insertIfAbsent s.appliedPromises index .handler
    waiting := some ⟨peer, index, false⟩
    history := .committed s.state s.currentTerm index s.log :: s.history }

/-- Adopt the request's term and bring the log in line with its entries. -/
def acceptEntries (s : Server σ) (req : AppendEntriesRequest) : Server σ :=
  let s := s.adoptTerm req.leaderId req.term
  { s with toMemoryStore := s.toMemoryStore.storeEntries req }

/-- `handleRequest(AppendEntriesRequest)`. No response is returned where the handler blocks, or
ends in a failed assertion. -/
def handleAppendEntriesRequest (s : Server σ) (peer : ℕ) (req : AppendEntriesRequest) :
    Server σ × Option AppendEntriesResponse :=
  if req.term < s.currentTerm then (s, some ⟨s.currentTerm, s.latestIndex, false⟩)
  else if s.getLogTerm req.prevLogIndex ≠ req.prevLogTerm then
    (s, some ⟨s.currentTerm, s.latestIndex, false⟩)
  else
    let s := s.acceptEntries req
    -- assert(lastIndex == latestIndex())
    if cfg.ndebug = false ∧ req.lastIndex ≠ s.latestIndex then ({ s with aborted := true }, none)
    else if s.commitIndex < req.leaderCommit then
      (s.advanceCommit peer (min req.leaderCommit req.lastIndex), none)
    else (s, some ⟨s.currentTerm, s.latestIndex, true⟩)

def finishAppendEntries (s : Server σ) : Server σ × AppendEntriesResponse :=
  ({ s with waiting := none }, ⟨s.currentTerm, s.latestIndex, true⟩)

/-! ### Replication, the leader's side -/

/-- The iterations of `tryLoadLogEntries`, with the number that is left and the command bytes
loaded so far. -/
def loadLogEntries (s : Server σ) : ℕ → ℕ → ℕ → Option (List LogEntry)
  | 0, _, _ => some []
  | n + 1, index, totalSize =>
    match s.getLogEntry index with
    | none => none
    | some entry =>
      if cfg.maxCommandsSizePerMessage < totalSize + entry.command.length then some []
      else
        match loadLogEntries s n (index + 1) (totalSize + entry.command.length) with
        | none => none
        | some entries => some (entry :: entries)

/-- `tryLoadLogEntries`: from `first` on, `first + count` included. -/
def tryLoadLogEntries (s : Server σ) (first : ℕ) : Option (List LogEntry) :=
  loadLogEntries cfg s (min cfg.maxCommandsPerMessage (s.latestIndex - first) + 1) first 0

/-- The bookkeeping of a follower, inserted as zero where there is none. -/
def followerState (s : Server σ) (peer : ℕ) : FollowerState :=
  (s.followers.lookup peer).getD .zero

/-- The request `replicateLogsTo` builds. It is sent in the server's current term, whatever its
role. -/
def appendEntriesRequest (s : Server σ) (nextIndex : ℕ) (entries : List LogEntry) :
    AppendEntriesRequest :=
  { term := s.currentTerm
    leaderId := s.id
    prevLogIndex := decr nextIndex
    prevLogTerm := s.getLogTerm (decr nextIndex)
    leaderCommit := s.commitIndex
    entries := entries }

/-- Send the request to a follower and advance its `nextIndex`. -/
def sendEntries (s : Server σ) (peer : ℕ) (fs : FollowerState) (entries : List LogEntry) :
    Server σ × List Packet :=
  let req := s.appendEntriesRequest fs.nextIndex entries
  ({ s with
      followers := s.followers.insert peer { fs with nextIndex := fs.nextIndex + entries.length }
      history := .replicated peer req :: s.history },
    [⟨s.id, peer, .appendEntriesRequest req⟩])

/-- `replicateLogsTo`: one round of a replication worker. -/
def replicateLogsTo (s : Server σ) (peer : ℕ) : Server σ × List Packet :=
  let fs := s.followerState peer
  if fs.nextIndex ≤ s.latestIndex then
    match s.tryLoadLogEntries cfg fs.nextIndex with
    | none => ({ s with followers := s.followers.insert peer fs }, [])
    | some entries => s.sendEntries peer fs entries
  else s.sendEntries peer fs []

/-- What `replicationLoop` does before its first round. -/
def replicationLoop (s : Server σ) (peer : ℕ) : Server σ :=
  { s with
    followers := s.followers.insert peer ⟨s.latestIndex + 1, 0⟩
    loopTasks := s.loopTasks.erase peer
    loops := peer :: s.loops }

/-- The followers after a response: `matchIndex` is what the follower says its latest index is. -/
def recordResponse (followers : AList fun _ : ℕ ↦ FollowerState) (peer : ℕ)
    (resp : AppendEntriesResponse) : AList fun _ : ℕ ↦ FollowerState :=
  followers.insert peer
    ⟨resp.lastLogIndex + 1, if resp.success then resp.lastLogIndex else 0⟩

/-- The match indices the leader knows. -/
def matchIndices (followers : AList fun _ : ℕ ↦ FollowerState) : List ℕ :=
  followers.entries.map fun f ↦ f.2.matchIndex

/-- `computeCommitIndex`: the largest index between the lowest and the highest match index that
more than half of the *known* followers have reached. -/
def computeCommitIndex (followers : AList fun _ : ℕ ↦ FollowerState) : ℕ :=
  let ms := matchIndices followers
  let low := ms.min?.getD 0
  let high := ms.max?.getD 0
  let quorum := ms.length / 2 + 1
  (List.range' low (high + 1 - low)).foldl
    (fun result n ↦ if quorum ≤ ms.countP (n ≤ ·) ∧ result < n then n else result) low

/-- `handleResponse(AppendEntriesResponse)`. -/
def handleAppendEntriesResponse (s : Server σ) (peer : ℕ) (resp : AppendEntriesResponse) :
    Server σ :=
  if s.state ≠ .leader then s
  else
    let followers := recordResponse s.followers peer resp
    let index := computeCommitIndex followers
    if s.commitIndex ≠ index then
      { s with
        followers := followers
        commitIndex := index
        history := .committed s.state s.currentTerm index s.log :: s.history }
    else { s with followers := followers }

/-! ### Clients and the state machine -/

/-- The closure of `appendLogEntryAsync`, with the callback `sendCommandAsync` has put on its
future: append, remember whose entry it is, and wake every worker, which makes `followers_` hold
all peers. -/
def storeTask (s : Server σ) (entry : LogEntry) (ticket : ℕ) : Server σ :=
  let st := s.toMemoryStore.appendLogEntry entry
  { s with
    toMemoryStore := st
    appliedPromises := insertIfAbsent s.appliedPromises st.latestIndex (.client ticket)
    followers := (cfg.peers s.id).foldl (insertIfAbsent · · .zero) s.followers
    history := .created ticket s.log entry :: s.history }

/-- `sendCommandAsync`: only the role is checked, not whether leadership still stands. -/
def sendCommandAsync (s : Server σ) (cmd : Command) : Server σ :=
  let ticket := s.tickets
  let s := { s with tickets := ticket + 1, history := .submitted ticket cmd :: s.history }
  if s.state = .leader then
    let entry := .ofCommand s.currentTerm cmd
    if cfg.delayedStore then { s with storeTasks := s.storeTasks ++ [(entry, ticket)] }
    else s.storeTask cfg entry ticket
  else s.observe (.rejected ticket)

/-- Run the numbered task of the store's executor. -/
def runStoreTask (s : Server σ) (k : ℕ) : Option (Server σ) :=
  (s.storeTasks[k]?).map fun task ↦
    storeTask cfg { s with storeTasks := s.storeTasks.eraseIdx k } task.1 task.2

/-- The event of a fulfilled promise: nothing is observed of the handler's own. -/
def Promise.events (reply : Reply) : Promise → List Event
  | .client ticket => [.replied ticket reply]
  | .handler => []

/-- Fulfil the promise at an index, if there is one. -/
def fulfil (s : Server σ) (index : ℕ) (reply : Reply) : Server σ :=
  match s.appliedPromises.lookup index with
  | none => s
  | some promise =>
    { s with
      appliedPromises := s.appliedPromises.erase index
      waiting := s.waiting.map fun w ↦ if w.index = index then { w with ready := true } else w
      history := Promise.events reply promise ++ s.history }

/-- One iteration of `applyLogs`, or `none` where the loop ends: everything committed is applied,
the entry cannot be read, or it is of a type that raises `NotImplementedError`. -/
def applyNext (s : Server σ) : Option (Server σ) :=
  if s.lastApplied < s.commitIndex then
    match s.getLogEntry (s.lastApplied + 1) with
    | none => none
    | some entry =>
      if entry.type = .command then
        let r := cfg.applyCommand s.machine entry.command
        some { fulfil
            { s with
              machine := r.2
              history := .applied (s.lastApplied + 1) entry r.1 :: s.history }
            (s.lastApplied + 1) r.1 with
          lastApplied := s.lastApplied + 1 }
      else none
  else none

/-- At most the given number of iterations of `applyLogs`. -/
def applyUpTo : ℕ → Server σ → Server σ
  | 0, s => s
  | n + 1, s =>
    match applyNext cfg s with
    | none => s
    | some s' => applyUpTo n s'

/-- `applyLogs`: every iteration advances `lastApplied_` by one, towards `commitIndex_`. -/
def applyLogs (s : Server σ) : Server σ := applyUpTo cfg (s.commitIndex - s.lastApplied) s

end Server

/-! ### Inputs -/

/-- What can happen to a server. -/
inductive Input
  | timeout
  /-- The transport delivers a message. -/
  | receive (src : ℕ) (msg : Message)
  /-- A client calls `sendCommandAsync`. -/
  | command (cmd : Command)
  /-- The store's executor runs one of its tasks. -/
  | store (task : ℕ)
  | beginLoop (peer : ℕ)
  /-- A replication worker takes a round. -/
  | replicate (peer : ℕ)
  /-- `applyLogs` is called. -/
  | apply
  | resume
  deriving DecidableEq, Repr

namespace Server

variable {σ : Type} (cfg : Config σ)

/-- Deliver a message to the handler for its type; a request's answer goes back to its sender. -/
def receive (s : Server σ) (src : ℕ) : Message → Server σ × List Packet
  | .voteRequest req =>
    ((s.handleVoteRequest req).1, [⟨s.id, src, .voteResponse (s.handleVoteRequest req).2⟩])
  | .voteResponse resp => (s.handleVoteResponse cfg resp, [])
  | .appendEntriesRequest req =>
    let r := s.handleAppendEntriesRequest cfg src req
    (r.1, r.2.toList.map fun resp ↦ ⟨s.id, src, .appendEntriesResponse resp⟩)
  | .appendEntriesResponse resp => (s.handleAppendEntriesResponse src resp, [])

/-- The effect of an input, with the packets it sends, where the input can happen. Timeouts and
messages need the lock. -/
def handle (s : Server σ) (inp : Input) : Option (Server σ × List Packet) :=
  if s.aborted then none
  else
    match inp with
    | .timeout => if s.waiting = none then some (s.onTimeout cfg) else none
    | .receive src msg => if s.waiting = none then some (s.receive cfg src msg) else none
    | .command cmd => some (s.sendCommandAsync cfg cmd, [])
    | .store task => (s.runStoreTask cfg task).map (·, [])
    | .beginLoop peer => if peer ∈ s.loopTasks then some (s.replicationLoop peer, []) else none
    | .replicate peer =>
      if s.running ∧ peer ∈ s.loops then some (s.replicateLogsTo cfg peer) else none
    | .apply => some (s.applyLogs cfg, [])
    | .resume =>
      match s.waiting with
      | some ⟨peer, _, true⟩ =>
        some (s.finishAppendEntries.1,
          [⟨s.id, peer, .appendEntriesResponse s.finishAppendEntries.2⟩])
      | _ => none

end Server

end Xzero.Raft
