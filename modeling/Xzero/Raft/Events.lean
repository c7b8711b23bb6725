import Xzero.Raft.ServerSpec

/-!
# What is recorded, and why

`history` only grows, and `Effect.arises` says what each event in it attests: the input it was
recorded at, and what held of the server then. Statements about whole runs are statements about
histories, so this is where their proofs start from.
-/

namespace Xzero.Raft

open List

variable {σ : Type}

namespace Server

/-- What an event recorded between two states attests. -/
def Arises (cfg : Config σ) (s : Server σ) (inp : Input) (s' : Server σ) : Event → Prop
  | .candidacy term log =>
    inp = .timeout ∧ s.state ≠ .leader ∧ term = wrap (s.currentTerm + 1) ∧ log = s.log
  | .voted term candidate log =>
    ∃ src req, inp = .receive src (.voteRequest req) ∧ s.Grants req ∧ term = req.term ∧
      candidate = req.candidateId ∧ log = s.log
  | .elected term log =>
    ∃ src resp, inp = .receive src (.voteResponse resp) ∧ s.state = .candidate ∧
      resp.voteGranted = true ∧ cfg.quorum ≤ s.votesGranted + 1 ∧ term = s.currentTerm ∧ log = s.log
  | .replicated peer req =>
    inp = .replicate peer ∧ peer ∈ s.loops ∧
      ∃ entries, req = s.appendEntriesRequest (s.followerState peer).nextIndex entries
  | .committed role term index log =>
    role = s'.state ∧ term = s'.currentTerm ∧ index = s'.commitIndex ∧ log = s'.log ∧
      ((∃ src req, inp = .receive src (.appendEntriesRequest req) ∧ s.Accepts req) ∨
        ∃ src resp, inp = .receive src (.appendEntriesResponse resp) ∧ s.state = .leader)
  | .submitted ticket cmd => inp = .command cmd ∧ ticket = s.tickets
  | .rejected ticket => ticket = s.tickets ∧ s.state ≠ .leader
  | .created ticket before entry =>
    before = s.log ∧ s'.log = s.log ++ [entry] ∧
      ((∃ cmd, inp = .command cmd ∧ s.state = .leader ∧ ticket = s.tickets ∧
          entry = .ofCommand s.currentTerm cmd) ∨
        ∃ k, inp = .store k ∧ s.storeTasks[k]? = some (entry, ticket))
  | .applied index entry _ =>
    inp = .apply ∧ s.lastApplied < index ∧ index ≤ s.commitIndex ∧ s.getLogEntry index = some entry
  | .replied .. => inp = .apply

section

variable {cfg : Config σ} {s s' : Server σ} {inp : Input} {out : List Packet}

/-- `applyLogs` records the entries between the last applied one and the commit index. -/
theorem applyLogs_arises (cfg : Config σ) (s s' : Server σ) :
    ∃ new, (s.applyLogs cfg).history = new ++ s.history ∧
      ∀ ev ∈ new, Arises cfg s .apply s' ev := by
  -- The iterations read the log and the commit index, and change neither.
  suffices h : (s.applyLogs cfg).toMemoryStore = s.toMemoryStore ∧
      (s.applyLogs cfg).commitIndex = s.commitIndex ∧
      s.lastApplied ≤ (s.applyLogs cfg).lastApplied ∧
      ∃ new, (s.applyLogs cfg).history = new ++ s.history ∧
        ∀ ev ∈ new, Arises cfg s .apply s' ev from h.2.2.2
  refine applyLogs_induction ⟨rfl, rfl, Nat.le_refl _, [], rfl, by simp⟩ ?_
  rintro t t' ⟨hstore, hcommit, hlast, new, hhist, hnew⟩ hnext
  obtain ⟨entry, p, w, replies, hlt, hentry, hf, rfl⟩ := applyNext_eq_some hnext
  refine ⟨hstore, hcommit, Nat.le_succ_of_le hlast, replies ++ .applied (t.lastApplied + 1) entry
      (cfg.applyCommand t.machine entry.command).1 :: new, ?_, ?_⟩
  · simp only [hhist, append_assoc, cons_append]
  · intro ev hev
    rcases mem_append.1 hev with hev | hev
    · obtain ⟨ticket, rfl, -⟩ := hf.replied ev hev
      rfl
    · rcases mem_cons.1 hev with rfl | hev
      · exact ⟨rfl, Nat.lt_succ_of_le hlast, hcommit ▸ hlt, hstore ▸ hentry⟩
      · exact hnew ev hev

section

variable (h : Effect cfg s inp s' out)
include h

/-- **Every event says what it was recorded for.** -/
theorem Effect.arises :
    ∃ new, s'.history = new ++ s.history ∧ ∀ ev ∈ new, Arises cfg s inp s' ev := by
  cases h with
  | candidacy hl => exact ⟨[_], rfl, by simpa [Arises] using hl⟩
  | voteGranted hle hg =>
    rw [grantVote_adoptTerm_eq hle]
    exact ⟨[_], rfl, by simpa [Arises] using hg⟩
  | elected hstate hgranted hquorum =>
    exact ⟨[_], rfl, by simpa [Arises] using ⟨hstate, hgranted, hquorum⟩⟩
  | appendAborted hacc | appendStored hacc => exact ⟨[], by rw [acceptEntries_eq]; rfl, by simp⟩
  | @appendCommitted src req hacc =>
    have hhist : (s.acceptEntries req).history = s.history := by rw [acceptEntries_eq]
    exact ⟨[_], congrArg (_ :: ·) hhist, by simpa [Arises, advanceCommit] using hacc⟩
  | responseCommitted hl => exact ⟨[_], rfl, by simp [Arises, hl]⟩
  | commandRejected hl =>
    exact ⟨[.rejected _, .submitted _ _], rfl, by simpa [Arises] using hl⟩
  | commandDelayed => exact ⟨[_], rfl, by simp [Arises]⟩
  | commandStored hl =>
    exact ⟨[.created _ _ _, .submitted _ _], rfl, by simp [Arises, storeTask, hl]⟩
  | stored hk => exact ⟨[_], rfl, by simp [Arises, storeTask, hk]⟩
  | heartbeat hp | replicated hp => exact ⟨[_], rfl, by simp [Arises, hp]⟩
  | applied => exact applyLogs_arises cfg s _
  | _ => exact ⟨[], rfl, by simp⟩

theorem Effect.history_subset : s.history ⊆ s'.history := by
  obtain ⟨new, hnew, -⟩ := h.arises
  rw [hnew]
  exact subset_append_right new s.history

theorem Effect.of_mem_history {ev : Event} (hev : ev ∈ s'.history) :
    ev ∈ s.history ∨ Arises cfg s inp s' ev := by
  obtain ⟨new, hnew, harises⟩ := h.arises
  rw [hnew] at hev
  rcases mem_append.1 hev with hev | hev
  · exact .inr (harises ev hev)
  · exact .inl hev

/-- And if it was recorded at this input, all that had been recorded before is earlier. -/
theorem Effect.of_suffix_history {ev : Event} {earlier : List Event}
    (hev : (ev :: earlier) <:+ s'.history) :
    (ev :: earlier) <:+ s.history ∨ Arises cfg s inp s' ev ∧ s.history ⊆ earlier := by
  obtain ⟨new, hnew, harises⟩ := h.arises
  rw [hnew] at hev
  clear hnew
  induction new with
  | nil => exact .inl hev
  | cons ev' new ih =>
    rcases suffix_cons_iff.1 hev with heq | hev
    · cases heq
      exact .inr ⟨harises ev mem_cons_self, subset_append_right new s.history⟩
    · exact ih hev fun ev hmem ↦ harises ev (mem_cons_of_mem ev' hmem)

end

end

end Server

end Xzero.Raft
