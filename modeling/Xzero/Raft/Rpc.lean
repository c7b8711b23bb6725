import Mathlib.Algebra.Group.Nat.Defs
import Mathlib.Data.List.Basic

/-!
# Raft messages

The wire types of `xzero/raft/rpc.h`. `Id`, `Term` and `Index` are unsigned machine integers in the
source (`uint32_t`, `uint64_t`); here they are natural numbers, and the two places whose result
depends on the width — incrementing a term, decrementing an index — say so through `wrap` and
`decr`.

`HelloRequest`, `HelloResponse` and the snapshot messages carry no protocol state: the server
answers the first pair with a constant and raises `NotImplementedError` on the others, so they are
left out here; `Xzero.Raft.Wire` has them.
-/

namespace Xzero.Raft

/-- A serialized command for the state machine. -/
abbrev Command := List UInt8

/-- The state machine's answer to a command. -/
abbrev Reply := List UInt8

/-- The number of values of a `uint64_t`. -/
def wordSize : ℕ := 2 ^ 64

/-- A sum as `uint64_t` arithmetic leaves it. -/
def wrap (n : ℕ) : ℕ := n % wordSize

/-- `n - 1` in `uint64_t` arithmetic: zero goes to the largest value. -/
def decr (n : ℕ) : ℕ := if n = 0 then wordSize - 1 else n - 1

theorem wrap_of_lt {n : ℕ} (h : n < wordSize) : wrap n = n := Nat.mod_eq_of_lt h

@[simp] theorem decr_succ (n : ℕ) : decr (n + 1) = n := by simp [decr]

/-- The kinds of log entry. Only `command` is ever created by the server. -/
inductive LogType
  | command
  | peerAdd
  | peerRemove
  deriving DecidableEq, Repr

/-- A single log entry. -/
structure LogEntry where
  /-- The term of the leader that created the entry. -/
  term : ℕ
  type : LogType
  /-- The command, empty for the other types. -/
  command : Command
  deriving DecidableEq, Repr

namespace LogEntry

/-- `LogEntry(Term, Command&&)`. -/
def ofCommand (term : ℕ) (cmd : Command) : LogEntry := ⟨term, .command, cmd⟩

/-- `LogEntry()`: the entry with term `0` and no command that sits at index `0` of every log. -/
def empty : LogEntry := ofCommand 0 []

end LogEntry

/-- Sent by a candidate to gather votes. -/
structure VoteRequest where
  term : ℕ
  /-- The candidate requesting the vote. -/
  candidateId : ℕ
  /-- The index of the candidate's last log entry. -/
  lastLogIndex : ℕ
  /-- The term of the candidate's last log entry. -/
  lastLogTerm : ℕ
  deriving DecidableEq, Repr

/-- The answer to a `VoteRequest`. -/
structure VoteResponse where
  term : ℕ
  voteGranted : Bool
  deriving DecidableEq, Repr

/-- Sent by a leader to replicate entries, and as a heartbeat when `entries` is empty. -/
structure AppendEntriesRequest where
  term : ℕ
  /-- The sender, so that followers can redirect clients. -/
  leaderId : ℕ
  /-- The index right before the new entries. -/
  prevLogIndex : ℕ
  /-- The term of the entry at `prevLogIndex`. -/
  prevLogTerm : ℕ
  leaderCommit : ℕ
  entries : List LogEntry
  deriving DecidableEq, Repr

namespace AppendEntriesRequest

/-- The index of the last entry the request speaks about, `prevLogIndex + entries.size()`. -/
def lastIndex (req : AppendEntriesRequest) : ℕ := req.prevLogIndex + req.entries.length

end AppendEntriesRequest

/-- The answer to an `AppendEntriesRequest`. -/
structure AppendEntriesResponse where
  term : ℕ
  lastLogIndex : ℕ
  /-- Whether the follower held a matching entry at `prevLogIndex`. -/
  success : Bool
  deriving DecidableEq, Repr

/-- The protocol messages. -/
inductive Message
  | voteRequest (req : VoteRequest)
  | voteResponse (resp : VoteResponse)
  | appendEntriesRequest (req : AppendEntriesRequest)
  | appendEntriesResponse (resp : AppendEntriesResponse)
  deriving DecidableEq, Repr

def Message.term : Message → ℕ
  | .voteRequest req => req.term
  | .voteResponse resp => resp.term
  | .appendEntriesRequest req => req.term
  | .appendEntriesResponse resp => resp.term

/-- A message in flight. -/
structure Packet where
  src : ℕ
  dst : ℕ
  msg : Message
  deriving DecidableEq, Repr

end Xzero.Raft
