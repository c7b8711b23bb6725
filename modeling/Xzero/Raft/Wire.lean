import Xzero.Library.Framing
import Xzero.Raft.Rpc
import Xzero.Util.Binary

/-!
# The wire format

`xzero/raft/Generator.cc` and `xzero/raft/Parser.cc`: all eight messages, each a frame that starts
with the length of its payload. The parser appends what it receives to its input buffer and takes
frames off as long as there are complete ones; it reads a message's fields without looking at the
payload length again.

`nextFrame` is `Parser::parseFrame` up to the bookkeeping of the buffer. It is a `FrameDecoder`, and
`Parser.parseFragments_refines` says that the buffer and offset of the source hold exactly what such
a decoder has pending. **The generator's frames are frames of this decoder**
(`WireMessage.frames_generate`), so the parser receives what was generated under any fragmentation.
-/

namespace Xzero.Raft

open List Xzero.Util

/-! ### Messages -/

/-- The first message on a connection. -/
structure HelloRequest where
  serverId : ℕ
  /-- A key that must match across the cluster. -/
  psk : List UInt8
  deriving DecidableEq, Repr

/-- The answer to a `HelloRequest`. -/
structure HelloResponse where
  success : Bool
  /-- A diagnostic message in case it is not. -/
  message : List UInt8
  deriving DecidableEq, Repr

/-- Sent by a leader to bring a follower up to date. -/
structure InstallSnapshotRequest where
  term : ℕ
  leaderId : ℕ
  /-- The snapshot replaces all entries up to this index. -/
  lastIncludedIndex : ℕ
  lastIncludedTerm : ℕ
  /-- The position of the chunk in the snapshot file. -/
  offset : ℕ
  data : List UInt8
  done : Bool
  deriving DecidableEq, Repr

/-- The answer to an `InstallSnapshotRequest`. -/
structure InstallSnapshotResponse where
  term : ℕ
  deriving DecidableEq, Repr

/-- What travels on a connection. -/
inductive WireMessage
  | voteRequest (req : VoteRequest)
  | voteResponse (resp : VoteResponse)
  | appendEntriesRequest (req : AppendEntriesRequest)
  | appendEntriesResponse (resp : AppendEntriesResponse)
  | installSnapshotRequest (req : InstallSnapshotRequest)
  | installSnapshotResponse (resp : InstallSnapshotResponse)
  | helloRequest (req : HelloRequest)
  | helloResponse (resp : HelloResponse)
  deriving DecidableEq, Repr

/-- `MessageType`, with the values of `MessageType.h`. -/
inductive MessageType
  | voteRequest
  | voteResponse
  | appendEntriesRequest
  | appendEntriesResponse
  | installSnapshotRequest
  | installSnapshotResponse
  | helloRequest
  | helloResponse
  deriving DecidableEq, Repr

def MessageType.toNat : MessageType → ℕ
  | .voteRequest => 1
  | .voteResponse => 2
  | .appendEntriesRequest => 3
  | .appendEntriesResponse => 4
  | .installSnapshotRequest => 5
  | .installSnapshotResponse => 6
  | .helloRequest => 7
  | .helloResponse => 8

/-- The message type of a number, if it has one. -/
def MessageType.ofNat? : ℕ → Option MessageType
  | 1 => some .voteRequest
  | 2 => some .voteResponse
  | 3 => some .appendEntriesRequest
  | 4 => some .appendEntriesResponse
  | 5 => some .installSnapshotRequest
  | 6 => some .installSnapshotResponse
  | 7 => some .helloRequest
  | 8 => some .helloResponse
  | _ => none

def LogType.toNat : LogType → ℕ
  | .command => 1
  | .peerAdd => 2
  | .peerRemove => 3

/-- The log type of a number, if it has one. -/
def LogType.ofNat? : ℕ → Option LogType
  | 1 => some .command
  | 2 => some .peerAdd
  | 3 => some .peerRemove
  | _ => none

/-! ### The generator -/

namespace Generator

/-- A flag as `msg.success ? 1 : 0`. -/
def writeBool (b : Bool) : List UInt8 := writeVarUInt b.toNat

/-- The message type in front of a payload. -/
def writeType (t : MessageType) : List UInt8 := writeVarUInt t.toNat

/-- One round of the loop over the entries. -/
def writeEntry (entry : LogEntry) : List UInt8 :=
  writeVarUInt entry.term ++ writeVarUInt entry.type.toNat ++ writeLengthDelimited entry.command

/-- What `wire_` has written into `buffer_` before the frame is flushed. -/
def payload : WireMessage → List UInt8
  | .voteRequest req =>
    writeType .voteRequest ++ (writeVarUInt req.term ++ (writeVarUInt req.candidateId ++
      (writeVarUInt req.lastLogIndex ++ writeVarUInt req.lastLogTerm)))
  | .voteResponse resp =>
    writeType .voteResponse ++ (writeVarUInt resp.term ++ writeBool resp.voteGranted)
  | .appendEntriesRequest req =>
    writeType .appendEntriesRequest ++ (writeVarUInt req.term ++ (writeVarUInt req.leaderId ++
      (writeVarUInt req.prevLogIndex ++ (writeVarUInt req.prevLogTerm ++
        (writeVarUInt req.leaderCommit ++ (writeVarUInt req.entries.length ++
          req.entries.flatMap writeEntry))))))
  | .appendEntriesResponse resp =>
    writeType .appendEntriesResponse ++ (writeVarUInt resp.term ++
      (writeVarUInt resp.lastLogIndex ++ writeBool resp.success))
  | .installSnapshotRequest req =>
    writeType .installSnapshotRequest ++ (writeVarUInt req.term ++ (writeVarUInt req.leaderId ++
      (writeVarUInt req.lastIncludedIndex ++ (writeVarUInt req.lastIncludedTerm ++
        (writeVarUInt req.offset ++ (writeLengthDelimited req.data ++ writeBool req.done))))))
  | .installSnapshotResponse resp =>
    writeType .installSnapshotResponse ++ writeVarUInt resp.term
  | .helloRequest req =>
    writeType .helloRequest ++ (writeVarUInt req.serverId ++ writeLengthDelimited req.psk)
  | .helloResponse resp =>
    writeType .helloResponse ++ (writeBool resp.success ++ writeLengthDelimited resp.message)

/-- `Generator::flushFrame`: the length of the buffer, then the buffer. -/
def flushFrame (buffer : List UInt8) : List UInt8 := writeVarUInt buffer.length ++ buffer

/-- The `generate…` function of a message's type. -/
def generate (msg : WireMessage) : List UInt8 := flushFrame (payload msg)

end Generator

/-! ### The parser -/

namespace Parser

/-- `static_cast<Id>(reader_.parseVarUInt())`: an `Id` has 32 bits. -/
def parseId : BinaryReader ℕ := (· % 2 ^ 32) <$> parseVarUInt

/-- `static_cast<bool>(reader_.parseVarUInt())`. -/
def parseBool : BinaryReader Bool := (fun n ↦ decide (n ≠ 0)) <$> parseVarUInt

/-- `static_cast<LogType>(reader_.parseVarUInt())`. The cast of a number without an enumerator is
outside of what the source defines. -/
def parseLogType : BinaryReader LogType := do
  match LogType.ofNat? (← parseVarUInt) with
  | some type => return type
  | none => throw .undefined

def parseVoteRequest : BinaryReader WireMessage := do
  let term ← parseVarUInt
  let candidateId ← parseId
  let lastLogIndex ← parseVarUInt
  let lastLogTerm ← parseVarUInt
  return .voteRequest ⟨term, candidateId, lastLogIndex, lastLogTerm⟩

def parseVoteResponse : BinaryReader WireMessage := do
  let term ← parseVarUInt
  let voteGranted ← parseBool
  return .voteResponse ⟨term, voteGranted⟩

/-- One round of the loop of `Parser::parseAppendEntriesRequest`. -/
def parseEntry : BinaryReader LogEntry := do
  let term ← parseVarUInt
  let type ← parseLogType
  let command ← parseLengthDelimited
  return ⟨term, type, command⟩

/-- The loop of `Parser::parseAppendEntriesRequest`. -/
def parseEntries : ℕ → BinaryReader (List LogEntry)
  | 0 => return []
  | entryCount + 1 => do
    let entry ← parseEntry
    let entries ← parseEntries entryCount
    return entry :: entries

def parseAppendEntriesRequest : BinaryReader WireMessage := do
  let term ← parseVarUInt
  let leaderId ← parseId
  let prevLogIndex ← parseVarUInt
  let prevLogTerm ← parseVarUInt
  let leaderCommit ← parseVarUInt
  let entryCount ← parseVarUInt
  let entries ← parseEntries entryCount
  return .appendEntriesRequest ⟨term, leaderId, prevLogIndex, prevLogTerm, leaderCommit, entries⟩

def parseAppendEntriesResponse : BinaryReader WireMessage := do
  let term ← parseVarUInt
  let lastLogIndex ← parseVarUInt
  let success ← parseBool
  return .appendEntriesResponse ⟨term, lastLogIndex, success⟩

def parseInstallSnapshotRequest : BinaryReader WireMessage := do
  let term ← parseVarUInt
  let leaderId ← parseId
  let lastIncludedIndex ← parseVarUInt
  let lastIncludedTerm ← parseVarUInt
  let offset ← parseVarUInt
  let data ← parseLengthDelimited
  let done ← parseBool
  return .installSnapshotRequest
    ⟨term, leaderId, lastIncludedIndex, lastIncludedTerm, offset, data, done⟩

def parseInstallSnapshotResponse : BinaryReader WireMessage := do
  let term ← parseVarUInt
  return .installSnapshotResponse ⟨term⟩

def parseHelloRequest : BinaryReader WireMessage := do
  let serverId ← parseId
  let psk ← parseLengthDelimited
  return .helloRequest ⟨serverId, psk⟩

def parseHelloResponse : BinaryReader WireMessage := do
  let success ← parseBool
  let message ← parseLengthDelimited
  return .helloResponse ⟨success, message⟩

/-- The `switch` of `Parser::parseFrame`. -/
def parseFields : MessageType → BinaryReader WireMessage
  | .voteRequest => parseVoteRequest
  | .voteResponse => parseVoteResponse
  | .appendEntriesRequest => parseAppendEntriesRequest
  | .appendEntriesResponse => parseAppendEntriesResponse
  | .installSnapshotRequest => parseInstallSnapshotRequest
  | .installSnapshotResponse => parseInstallSnapshotResponse
  | .helloRequest => parseHelloRequest
  | .helloResponse => parseHelloResponse

/-- The message type and, by it, the fields; a `MessageType` has eight bits. -/
def parseMessage : BinaryReader WireMessage := do
  match MessageType.ofNat? ((← parseVarUInt) % 2 ^ 8) with
  | some type => parseFields type
  | none => throw (.protocolError "Invalid message type.")

/-- `Parser::parseFrame` from `reader_.reset` to the end of the `switch`: the message the listener
receives and what the reader has pending, or `none` where the source returns `false`. -/
def nextFrame (bytes : List UInt8) : Except RuntimeError (Option (WireMessage × List UInt8)) := do
  match ← tryParseVarUInt.run bytes with
  | (none, _) => return none
  | (some payloadLen, pending) =>
    if pending.length < payloadLen then return none
    else return some (← parseMessage.run pending)

end Parser

/-- The members of `raft::Parser` that outlive a call. -/
structure Parser where
  /-- Everything received since the buffer was last cleared. -/
  inputBuffer : List UInt8
  /-- Where the first unread frame starts. -/
  inputOffset : ℕ
  /-- The offset lies within the buffer. -/
  offset_le : inputOffset ≤ inputBuffer.length
  deriving DecidableEq, Repr

namespace Parser

/-- A parser that has received nothing. -/
def init : Parser := ⟨[], 0, le_refl 0⟩

/-- The bytes that were received and not yet taken off, `inputBuffer_.ref(inputOffset_)`. -/
def pending (p : Parser) : List UInt8 := p.inputBuffer.drop p.inputOffset

/-- The end of `Parser::parseFrame`: move the offset behind the frame, or clear a buffer that was
read to its end. -/
def advance (p : Parser) (pending : List UInt8) : Parser :=
  if 0 < pending.length then
    ⟨p.inputBuffer, p.inputBuffer.length - pending.length, Nat.sub_le _ _⟩
  else init

/-- `inputBuffer_.push_back`. -/
def push (p : Parser) (chunk : List UInt8) : Parser :=
  ⟨p.inputBuffer ++ chunk, p.inputOffset, by
    rw [length_append]
    exact Nat.le_add_right_of_le p.offset_le⟩

def parseFrame (p : Parser) : Except RuntimeError (Option (WireMessage × Parser)) := do
  match ← nextFrame p.pending with
  | none => return none
  | some (msg, pending) => return some (msg, p.advance pending)

end Parser

/-! ### What a message has to fit -/

/-- Every field is a value of its type in the source: an `Id` has 32 bits, a `Term`, an `Index` and
a size 64. -/
def WireMessage.FieldsFit : WireMessage → Prop
  | .voteRequest req => req.term < 2 ^ 64 ∧ req.candidateId < 2 ^ 32 ∧
      req.lastLogIndex < 2 ^ 64 ∧ req.lastLogTerm < 2 ^ 64
  | .voteResponse resp => resp.term < 2 ^ 64
  | .appendEntriesRequest req => req.term < 2 ^ 64 ∧ req.leaderId < 2 ^ 32 ∧
      req.prevLogIndex < 2 ^ 64 ∧ req.prevLogTerm < 2 ^ 64 ∧ req.leaderCommit < 2 ^ 64 ∧
      req.entries.length < 2 ^ 64 ∧
      ∀ entry ∈ req.entries, entry.term < 2 ^ 64 ∧ entry.command.length < 2 ^ 64
  | .appendEntriesResponse resp => resp.term < 2 ^ 64 ∧ resp.lastLogIndex < 2 ^ 64
  | .installSnapshotRequest req => req.term < 2 ^ 64 ∧ req.leaderId < 2 ^ 32 ∧
      req.lastIncludedIndex < 2 ^ 64 ∧ req.lastIncludedTerm < 2 ^ 64 ∧ req.offset < 2 ^ 64 ∧
      req.data.length < 2 ^ 64
  | .installSnapshotResponse resp => resp.term < 2 ^ 64
  | .helloRequest req => req.serverId < 2 ^ 32 ∧ req.psk.length < 2 ^ 64
  | .helloResponse resp => resp.message.length < 2 ^ 64

/-- A message the generator can hold: its fields are values of their types, and so is the size of
the buffer its payload is written to. -/
structure Sendable where
  message : WireMessage
  /-- Its fields have values of their types. -/
  fields : message.FieldsFit
  /-- The payload's size is a `size_t`. -/
  size : (Generator.payload message).length < 2 ^ 64

/-! ### Reading the fields back -/

namespace Parser

open Generator FrameDecoder StateT

theorem reads_parseId {n : ℕ} (h : n < 2 ^ 32) : parseId.Reads (writeVarUInt n) n := by
  have hread := (reads_parseVarUInt (Nat.lt_trans h (by decide))).map (· % 2 ^ 32)
  rwa [Nat.mod_eq_of_lt h] at hread

theorem reads_parseBool (b : Bool) : parseBool.Reads (writeBool b) b := by
  have hread := (reads_parseVarUInt (lt_of_le_of_lt b.toNat_le (by decide))).map
    fun n ↦ decide (n ≠ 0)
  cases b <;> exact hread

theorem reads_parseLogType (type : LogType) :
    parseLogType.Reads (writeVarUInt type.toNat) type := by
  have hread : parseVarUInt.Reads (writeVarUInt type.toNat) type.toNat :=
    reads_parseVarUInt (by cases type <;> decide)
  rw [← append_nil (writeVarUInt type.toNat)]
  refine hread.bind ?_
  cases type <;> exact Reader.Reads.pure _

theorem reads_parseEntry {entry : LogEntry} (hterm : entry.term < 2 ^ 64)
    (hcommand : entry.command.length < 2 ^ 64) : parseEntry.Reads (writeEntry entry) entry := by
  rw [writeEntry, append_assoc, ← append_nil (writeLengthDelimited _)]
  exact (reads_parseVarUInt hterm).bind ((reads_parseLogType entry.type).bind
    ((reads_parseLengthDelimited hcommand).bind (Reader.Reads.pure entry)))

theorem reads_parseEntries {entries : List LogEntry}
    (h : ∀ entry ∈ entries, entry.term < 2 ^ 64 ∧ entry.command.length < 2 ^ 64) :
    (parseEntries entries.length).Reads (entries.flatMap writeEntry) entries := by
  induction entries with
  | nil => exact Reader.Reads.pure []
  | cons entry entries ih =>
    obtain ⟨hterm, hcommand⟩ := h entry mem_cons_self
    have htail := ih fun e he ↦ h e (mem_cons_of_mem _ he)
    rw [flatMap_cons, ← append_nil (entries.flatMap writeEntry)]
    exact (reads_parseEntry hterm hcommand).bind (htail.bind (Reader.Reads.pure _))

variable {msg : WireMessage}

theorem reads_of_parseFields {type : MessageType} {bytes : List UInt8}
    (h : (parseFields type).Reads bytes msg) :
    parseMessage.Reads (writeType type ++ bytes) msg := by
  refine (reads_parseVarUInt (by cases type <;> decide)).bind ?_
  cases type <;> exact h

/-- **The fields of a message are read back from its payload.** -/
theorem reads_parseMessage (h : msg.FieldsFit) : parseMessage.Reads (payload msg) msg := by
  rw [← append_nil (payload msg)]
  -- One chain of reads for each type of message, along its fields.
  cases msg with
  | voteRequest req =>
    obtain ⟨hterm, hid, hindex, hlast⟩ := h
    simp only [payload, append_assoc]
    exact reads_of_parseFields ((reads_parseVarUInt hterm).bind ((reads_parseId hid).bind
      ((reads_parseVarUInt hindex).bind ((reads_parseVarUInt hlast).bind (.pure _)))))
  | voteResponse resp =>
    simp only [payload, append_assoc]
    exact reads_of_parseFields ((reads_parseVarUInt h).bind
      ((reads_parseBool resp.voteGranted).bind (.pure _)))
  | appendEntriesRequest req =>
    obtain ⟨hterm, hid, hindex, hprev, hcommit, hcount, hentries⟩ := h
    simp only [payload, append_assoc]
    exact reads_of_parseFields ((reads_parseVarUInt hterm).bind ((reads_parseId hid).bind
      ((reads_parseVarUInt hindex).bind ((reads_parseVarUInt hprev).bind
        ((reads_parseVarUInt hcommit).bind ((reads_parseVarUInt hcount).bind
          ((reads_parseEntries hentries).bind (.pure _))))))))
  | appendEntriesResponse resp =>
    obtain ⟨hterm, hindex⟩ := h
    simp only [payload, append_assoc]
    exact reads_of_parseFields ((reads_parseVarUInt hterm).bind
      ((reads_parseVarUInt hindex).bind ((reads_parseBool resp.success).bind (.pure _))))
  | installSnapshotRequest req =>
    obtain ⟨hterm, hid, hindex, hlast, hoffset, hdata⟩ := h
    simp only [payload, append_assoc]
    exact reads_of_parseFields ((reads_parseVarUInt hterm).bind ((reads_parseId hid).bind
      ((reads_parseVarUInt hindex).bind ((reads_parseVarUInt hlast).bind
        ((reads_parseVarUInt hoffset).bind ((reads_parseLengthDelimited hdata).bind
          ((reads_parseBool req.done).bind (.pure _))))))))
  | installSnapshotResponse resp =>
    simp only [payload, append_assoc]
    exact reads_of_parseFields ((reads_parseVarUInt h).bind (.pure _))
  | helloRequest req =>
    obtain ⟨hid, hpsk⟩ := h
    simp only [payload, append_assoc]
    exact reads_of_parseFields ((reads_parseId hid).bind
      ((reads_parseLengthDelimited hpsk).bind (.pure _)))
  | helloResponse resp =>
    simp only [payload, append_assoc]
    exact reads_of_parseFields ((reads_parseBool resp.success).bind
      ((reads_parseLengthDelimited h).bind (.pure _)))

/-! ### Parsing ends -/

theorem shrinks_parseId : parseId.Shrinks := shrinks_parseVarUInt.map _

theorem shrinks_parseBool : parseBool.Shrinks := shrinks_parseVarUInt.map _

theorem shrinks_parseEntries (entryCount : ℕ) : (parseEntries entryCount).Shrinks := by
  induction entryCount with
  | zero => exact .pure []
  | succ entryCount ih =>
    refine .bind ?_ fun entry ↦ ih.bind fun entries ↦ .pure _
    refine shrinks_parseVarUInt.bind fun term ↦ .bind ?_ fun type ↦
      shrinks_parseLengthDelimited.bind fun command ↦ .pure _
    refine shrinks_parseVarUInt.bind fun n ↦ ?_
    split
    · exact .pure _
    · exact .throw _

theorem shrinks_parseFields (type : MessageType) : (parseFields type).Shrinks := by
  -- The fields are read one after another, each by a reader that shrinks.
  cases type <;> repeat' first
    | exact shrinks_parseVarUInt
    | exact shrinks_parseId
    | exact shrinks_parseBool
    | exact shrinks_parseLengthDelimited
    | exact shrinks_parseEntries _
    | exact .pure _
    | refine .bind ?_ fun _ ↦ ?_

theorem shrinks_parseMessage : parseMessage.Shrinks := by
  refine shrinks_parseVarUInt.bind fun n ↦ ?_
  split
  · exact shrinks_parseFields _
  · exact .throw _

section

variable {bytes rest : List UInt8} {msg : WireMessage}
  (h : nextFrame bytes = .ok (some (msg, rest)))
include h

/-- What a frame was read from: a length, and behind it a message in at least as many bytes. -/
theorem nextFrame_eq_some :
    ∃ payloadLen pending, parseVarUIntLoop 0 0 bytes = some (payloadLen, pending) ∧
      payloadLen ≤ pending.length ∧ parseMessage.run pending = .ok (msg, rest) := by
  rcases hloop : parseVarUIntLoop 0 0 bytes with - | ⟨payloadLen, pending⟩
  · simp [nextFrame, tryParseVarUInt, run, hloop, bind, Except.bind, pure,
      Except.pure] at h
  · refine ⟨payloadLen, pending, rfl, ?_⟩
    simp only [nextFrame, tryParseVarUInt, run, hloop, bind, Except.bind, pure, Except.pure] at h
    split at h
    · simp at h
    · rcases hrun : parseMessage.run pending with e | ⟨msg', rest'⟩
      · simp only [run] at hrun
        simp [hrun] at h
      · simp only [run] at hrun
        simp only [hrun, Except.ok.injEq, Option.some.injEq] at h
        exact ⟨by omega, by rw [h]⟩

theorem nextFrame_suffix : rest <:+ bytes ∧ rest.length < bytes.length := by
  obtain ⟨payloadLen, pending, hloop, -, hrun⟩ := nextFrame_eq_some h
  obtain ⟨hsuffix, hlen⟩ := parseVarUIntLoop_suffix hloop
  have hmsg := shrinks_parseMessage hrun
  exact ⟨hmsg.trans hsuffix, lt_of_le_of_lt hmsg.length_le hlen⟩

end

/-- The parser as a decoder of frames. -/
def frameDecoder : FrameDecoder UInt8 WireMessage RuntimeError where
  next := nextFrame
  next_nil := rfl
  length_lt h := (nextFrame_suffix h).2

/-! ### The buffer and its offset -/

variable {p : Parser} {rest : List UInt8}

theorem pending_advance (h : rest <:+ p.pending) : (p.advance rest).pending = rest := by
  rcases rest with - | ⟨b, rest⟩
  · rfl
  · have hbuffer : b :: rest <:+ p.inputBuffer := h.trans (drop_suffix _ _)
    exact (suffix_iff_eq_drop.1 hbuffer).symm

theorem pending_push (p : Parser) (chunk : List UInt8) :
    (p.push chunk).pending = p.pending ++ chunk :=
  drop_append_of_le_length p.offset_le

theorem parseFrame_of_none (h : nextFrame p.pending = .ok none) : p.parseFrame = .ok none := by
  simp only [parseFrame, h, bind, Except.bind, pure, Except.pure]

theorem parseFrame_of_some (h : nextFrame p.pending = .ok (some (msg, rest))) :
    p.parseFrame = .ok (some (msg, p.advance rest)) := by
  simp only [parseFrame, h, bind, Except.bind, pure, Except.pure]

variable {e : RuntimeError}

theorem parseFrame_of_error (h : nextFrame p.pending = .error e) : p.parseFrame = .error e := by
  simp only [parseFrame, h, bind, Except.bind]

variable {p' : Parser}

theorem parseFrame_length
    (h : p.parseFrame = .ok (some (msg, p'))) : p'.pending.length < p.pending.length := by
  rcases hnext : nextFrame p.pending with e | - | ⟨msg', rest⟩
  · rw [parseFrame_of_error hnext] at h
    cases h
  · rw [parseFrame_of_none hnext] at h
    cases h
  · rw [parseFrame_of_some hnext] at h
    cases h
    obtain ⟨hsuffix, hlen⟩ := nextFrame_suffix hnext
    rwa [pending_advance hsuffix]

/-- The loop of `Parser::parseFragment`: the messages the listener receives, and the parser
afterwards or what was raised. -/
def parseFrames (p : Parser) : List WireMessage × Except RuntimeError Parser :=
  match h : p.parseFrame with
  | .error e => ([], .error e)
  | .ok none => ([], .ok p)
  | .ok (some (msg, p')) =>
    have := parseFrame_length h
    p'.parseFrames.map (msg :: ·) fun r ↦ r
termination_by p.pending.length

/-- `Parser::parseFragment`; the number it returns is the number of messages received. -/
def parseFragment (p : Parser) (chunk : List UInt8) : List WireMessage × Except RuntimeError Parser :=
  (p.push chunk).parseFrames

/-- Calls of `parseFragment` one after another, up to the first that raises. -/
def parseFragments (p : Parser) :
    List (List UInt8) → List WireMessage × Except RuntimeError Parser
  | [] => ([], .ok p)
  | chunk :: chunks =>
    match p.parseFragment chunk with
    | (msgs, .error e) => (msgs, .error e)
    | (msgs, .ok p') => (p'.parseFragments chunks).map (msgs ++ ·) fun r ↦ r

/-! ### The parser refines the decoder -/

theorem parseFrames_of_error (h : p.parseFrame = .error e) : p.parseFrames = ([], .error e) := by
  rw [parseFrames]
  split <;> simp_all

theorem parseFrames_of_none (h : p.parseFrame = .ok none) : p.parseFrames = ([], .ok p) := by
  rw [parseFrames]
  split <;> simp_all

theorem parseFrames_of_some (h : p.parseFrame = .ok (some (msg, p'))) :
    p.parseFrames = p'.parseFrames.map (msg :: ·) fun r ↦ r := by
  rw [parseFrames]
  split <;> simp_all

theorem parseFrames_refines (p : Parser) :
    p.parseFrames.map (fun msgs ↦ msgs) (Except.map pending) = frameDecoder.drain p.pending := by
  induction hlen : p.pending.length using Nat.strongRecOn generalizing p with
  | ind n ih =>
    rcases hnext : nextFrame p.pending with e | - | ⟨msg, rest⟩
    · rw [parseFrames_of_error (parseFrame_of_error hnext), drain_of_error hnext]
      rfl
    · rw [parseFrames_of_none (parseFrame_of_none hnext), drain_of_none hnext]
      rfl
    · obtain ⟨hsuffix, hlt⟩ := nextFrame_suffix hnext
      have hpending := pending_advance hsuffix
      have hrec := ih rest.length (by omega) (p.advance rest) (by rw [hpending])
      rw [hpending] at hrec
      rw [parseFrames_of_some (parseFrame_of_some hnext), drain_of_some hnext, ← hrec]
      rfl

/-- **The buffer and offset hold what the decoder has pending**, along any sequence of calls. -/
theorem parseFragments_refines (p : Parser) (chunks : List (List UInt8)) :
    (p.parseFragments chunks).map (fun msgs ↦ msgs) (Except.map pending) =
      frameDecoder.feed p.pending chunks := by
  induction chunks generalizing p with
  | nil => rfl
  | cons chunk chunks ih =>
    have hdrain := (p.push chunk).parseFrames_refines
    rw [pending_push] at hdrain
    rcases hrun : (p.push chunk).parseFrames with ⟨msgs, e | p'⟩
    · rw [feed, ← hdrain, parseFragments, parseFragment, hrun]
      rfl
    · rw [feed, ← hdrain, parseFragments, parseFragment, hrun]
      show _ = (frameDecoder.feed p'.pending chunks).map (msgs ++ ·) fun r ↦ r
      rw [← ih p']
      rfl

end Parser

/-! ### The round trip -/

namespace Sendable

open Generator Xzero.Raft.Parser

theorem nextFrame_of_lt (m : Sendable) {part : List UInt8}
    (h : part.length < (payload m.message).length) :
    nextFrame (writeVarUInt (payload m.message).length ++ part) = .ok none := by
  rw [nextFrame, reads_tryParseVarUInt m.size part]
  show (if part.length < (payload m.message).length then _ else _) = _
  rw [if_pos h]
  rfl

/-- **A generated message is a frame**: recognised when it is complete, and not before. -/
theorem frames_generate (m : Sendable) : frameDecoder.Frames (generate m.message) m.message where
  next_append rest := by
    have hlen := reads_tryParseVarUInt m.size (payload m.message ++ rest)
    have hmsg := reads_parseMessage m.fields rest
    show nextFrame _ = _
    rw [nextFrame, generate, flushFrame, append_assoc, hlen]
    show (if (payload m.message ++ rest).length < (payload m.message).length then _ else _) = _
    rw [if_neg (by simp), hmsg]
    rfl
  next_part {p q} h hq := by
    show nextFrame p = _
    -- The cut lies within the payload, or within the length in front of it.
    rcases append_eq_append_iff.1 h with ⟨part, rfl, hpart⟩ | ⟨q', hq', hrest⟩
    · refine m.nextFrame_of_lt ?_
      rw [hpart, length_append]
      exact Nat.lt_add_of_pos_right (length_pos_iff.2 hq)
    · rcases eq_or_ne q' [] with rfl | hne
      · rw [append_nil] at hq'
        rw [← hq', ← append_nil (writeVarUInt _)]
        rw [nil_append] at hrest
        exact m.nextFrame_of_lt (length_pos_iff.2 (hrest ▸ hq))
      · rw [nextFrame, tryParseVarUInt_part hq' hne]
        rfl

/-- **The parser receives what was generated, however it is cut.** For every list of messages and
every fragmentation of their frames, the listener receives exactly these messages in this order,
nothing is raised and no byte stays pending. -/
theorem parseFragments_generate (messages : List Sendable) (chunks : List (List UInt8))
    (h : chunks.flatten = messages.flatMap fun m ↦ generate m.message) :
    ∃ p, init.parseFragments chunks = (messages.map message, .ok p) ∧ p.pending = [] := by
  have hframes : ∀ msg ∈ messages.map message, frameDecoder.Frames (generate msg) msg := by
    intro msg hmsg
    obtain ⟨m, -, rfl⟩ := mem_map.1 hmsg
    exact m.frames_generate
  have hfeed := FrameDecoder.feed_frames hframes (h.trans (flatMap_map _ _ _).symm)
  have hrefines := init.parseFragments_refines chunks
  rw [show init.pending = [] from rfl, hfeed] at hrefines
  rcases hrun : init.parseFragments chunks with ⟨msgs, e | p⟩
  · rw [hrun] at hrefines
    cases hrefines
  · rw [hrun] at hrefines
    obtain ⟨rfl, hpending⟩ := Prod.mk.inj hrefines
    exact ⟨p, rfl, Except.ok.inj hpending⟩

/-- A vote and a log entry, received byte by byte. -/
theorem parseFragments_bytewise : ∃ messages : List Sendable, messages.map message =
        [.voteResponse ⟨300, true⟩, .appendEntriesRequest ⟨1, 2, 3, 4, 5, [⟨1, .command, [7]⟩]⟩] ∧
      ∃ p, init.parseFragments ((messages.flatMap fun m ↦ generate m.message).map fun b ↦ [b]) =
        (messages.map message, .ok p) ∧ p.pending = [] :=
  ⟨[⟨.voteResponse ⟨300, true⟩, by simp [WireMessage.FieldsFit], by
      simp [payload, writeType, writeBool, writeVarUInt_of_le, writeVarUInt_of_lt,
        MessageType.toNat]⟩,
    ⟨.appendEntriesRequest ⟨1, 2, 3, 4, 5, [⟨1, .command, [7]⟩]⟩, by simp [WireMessage.FieldsFit],
      by simp [payload, writeType, writeEntry, writeLengthDelimited, writeVarUInt_of_lt,
        MessageType.toNat, LogType.toNat]⟩],
    rfl, parseFragments_generate _ _ (by rw [← flatMap_def, flatMap_singleton'])⟩

end Sendable

end Xzero.Raft
