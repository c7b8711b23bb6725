import Xzero.Raft.Rpc

/-!
# The in-memory store

`MemoryStore` of `xzero/raft/Storage.cc`: the vote, the current term and the log, with index `0`
of the log taken by a placeholder entry of term `0`. The snapshot fields are written by nothing
the server runs and are left out, and so is `FileStore`, whose log operations are stubs.

`truncateLog` is kept as the source has it. The interface documents it as deleting "any log entry
starting after `last`", which is a resize to `last + 1` elements; the implementation resizes to
`last`, so the entry *at* `last` goes too (`truncateLog_log`).
-/

namespace Xzero.Raft

open List

/-- `std::vector::resize`: cut the list, or pad it with a value, to the given length. -/
def resize {α : Type*} (l : List α) (n : ℕ) (a : α) : List α :=
  l.take n ++ replicate (n - l.length) a

theorem resize_of_le {α : Type*} {l : List α} {n : ℕ} (a : α) (h : n ≤ l.length) :
    resize l n a = l.take n := by
  simp [resize, Nat.sub_eq_zero_of_le h]

/-- The persistent state of a server, in memory. -/
structure MemoryStore where
  /-- The vote cast in the current term, with the term it was recorded under. -/
  votedFor : Option (ℕ × ℕ)
  /-- The latest term the server has seen. -/
  currentTerm : ℕ
  log : List LogEntry
  deriving DecidableEq, Repr

namespace MemoryStore

/-- The constructor: no vote, term `1`, and only the placeholder in the log. -/
def new : MemoryStore := ⟨none, 1, [.empty]⟩

/-- `initialize`: the log is cut back to the placeholder. -/
def initializeStore (st : MemoryStore) : MemoryStore :=
  { st with log := resize st.log 1 .empty }

def clearVotedFor (st : MemoryStore) : MemoryStore := { st with votedFor := none }

def setVotedFor (st : MemoryStore) (id : ℕ) (term : ℕ) : MemoryStore :=
  { st with votedFor := some (id, term) }

def setCurrentTerm (st : MemoryStore) (term : ℕ) : MemoryStore :=
  { st with currentTerm := term }

/-- `log_.size() - 1`. An empty vector gives the largest index; a vector never holds `2 ^ 64`
entries, so the size itself does not wrap. -/
def latestIndex (st : MemoryStore) : ℕ := decr st.log.length

def appendLogEntry (st : MemoryStore) (entry : LogEntry) : MemoryStore :=
  { st with log := st.log ++ [entry] }

/-- The entry at an index, or the out-of-range error. -/
def getLogEntry (st : MemoryStore) (index : ℕ) : Option LogEntry :=
  if st.latestIndex < index then none else st.log[index]?

/-- `log_.resize(last)`. -/
def truncateLog (st : MemoryStore) (last : ℕ) : MemoryStore :=
  { st with log := resize st.log last .empty }

/-- `Server::getLogTerm`: the term at an index, and `0` past the end of the log. -/
def getLogTerm (st : MemoryStore) (index : ℕ) : ℕ :=
  if index ≤ st.latestIndex then (st.getLogEntry index).elim 0 LogEntry.term else 0

/-! ### What the operations write -/

@[simp] theorem clearVotedFor_votedFor (st : MemoryStore) : st.clearVotedFor.votedFor = none := rfl

@[simp] theorem appendLogEntry_log (st : MemoryStore) (entry : LogEntry) :
    (st.appendLogEntry entry).log = st.log ++ [entry] := rfl

/-- **Truncation keeps `last` entries, placeholder included** — one fewer than its contract. -/
theorem truncateLog_log {st : MemoryStore} {last : ℕ} (h : last ≤ st.log.length) :
    (st.truncateLog last).log = st.log.take last :=
  resize_of_le _ h

/-! ### Reading a log that holds its placeholder -/

section Read

variable {st : MemoryStore} (hne : st.log ≠ [])

include hne

theorem latestIndex_eq : st.latestIndex = st.log.length - 1 := by
  have : st.log.length ≠ 0 := by simpa using hne
  simp [latestIndex, decr, this]

theorem latestIndex_lt_iff {i : ℕ} : st.latestIndex < i ↔ st.log.length ≤ i := by
  have : 0 < st.log.length := length_pos_of_ne_nil hne
  rw [latestIndex_eq hne]
  omega

theorem le_latestIndex_iff {i : ℕ} : i ≤ st.latestIndex ↔ i < st.log.length := by
  have : 0 < st.log.length := length_pos_of_ne_nil hne
  rw [latestIndex_eq hne]
  omega

theorem getLogEntry_eq (i : ℕ) : st.getLogEntry i = st.log[i]? := by
  by_cases h : st.log.length ≤ i
  · rw [getLogEntry, if_pos ((latestIndex_lt_iff hne).2 h), getElem?_eq_none h]
  · rw [getLogEntry, if_neg (mt (latestIndex_lt_iff hne).1 h)]

theorem getLogTerm_eq (i : ℕ) : st.getLogTerm i = (st.log[i]?).elim 0 LogEntry.term := by
  by_cases h : i < st.log.length
  · rw [getLogTerm, if_pos ((le_latestIndex_iff hne).2 h), getLogEntry_eq hne]
  · rw [getLogTerm, if_neg (mt (le_latestIndex_iff hne).1 h), getElem?_eq_none (by omega)]
    rfl

theorem getLogTerm_of_getElem? {i : ℕ} {e : LogEntry} (h : st.log[i]? = some e) :
    st.getLogTerm i = e.term := by
  rw [getLogTerm_eq hne, h]
  rfl

end Read

end MemoryStore

end Xzero.Raft
