import Xzero.Raft.Server

/-!
# Storing the entries of a request

What `storeEntries` — the conflict scan, the truncation and the append loop of
`handleRequest(AppendEntriesRequest)` — does to the log.

* Where the request's entries nowhere disagree with the log (`NoConflict`), the log only grows, by
  the entries past its end (`storeEntries_log`).
* At a first disagreement, at index `k`, the log is cut to the `k - 1` entries below index `k - 1`
  before the rest of the request is appended (`storeEntries_log_of_conflict`): the entry at
  `k - 1`, which the scan had just found in agreement, is lost, and everything after it lands one
  index too low.
-/

namespace Xzero.Raft.MemoryStore

open List

/-- The entries, taken to sit from `index` on, have the terms the log has there. -/
def NoConflict (st : MemoryStore) (index : ℕ) (entries : List LogEntry) : Prop :=
  ∀ p ∈ entries.zipIdx index, p.2 ≤ st.latestIndex → p.1.term = st.getLogTerm p.2

instance (st : MemoryStore) (index : ℕ) (entries : List LogEntry) :
    Decidable (st.NoConflict index entries) :=
  inferInstanceAs (Decidable (∀ p ∈ entries.zipIdx index, _))

variable {st : MemoryStore}

variable {index : ℕ} {e : LogEntry} {es : List LogEntry}

theorem noConflict_cons : st.NoConflict index (e :: es) ↔
      (index ≤ st.latestIndex → e.term = st.getLogTerm index) ∧ st.NoConflict (index + 1) es := by
  simp [NoConflict, zipIdx_cons]

theorem NoConflict.term_eq {k : ℕ}
    (h : st.NoConflict index es) (hk : es[k]? = some e) (hle : index + k ≤ st.latestIndex) :
    e.term = st.getLogTerm (index + k) :=
  h (e, index + k) (mk_add_mem_zipIdx_iff_getElem?.2 hk) hle

/-! ### The scan -/

theorem resolveConflicts_of_noConflict (hne : st.log ≠ []) : ∀ {index : ℕ}, st.NoConflict index es →
      st.resolveConflicts index es = (st, es.drop (st.log.length - index)) := by
  induction es with
  | nil =>
    intro index _
    simp [resolveConflicts]
  | cons e es ih =>
    intro index h
    rw [noConflict_cons] at h
    rw [resolveConflicts]
    by_cases hend : st.log.length ≤ index
    · rw [if_pos ((latestIndex_lt_iff hne).2 hend), Nat.sub_eq_zero_of_le hend, drop_zero]
    · have hle : index ≤ st.latestIndex := (le_latestIndex_iff hne).2 (by omega)
      have hsub : st.log.length - index = (st.log.length - (index + 1)) + 1 := by omega
      rw [if_neg (by omega), if_neg (not_not.2 (h.1 hle)), ih h.2, hsub, drop_succ_cons]

theorem resolveConflicts_of_conflict (hne : st.log ≠ []) : ∀ {index : ℕ}, ¬ st.NoConflict index es →
      ∃ k e, es[k]? = some e ∧ index + k < st.log.length ∧ e.term ≠ st.getLogTerm (index + k) ∧
        st.resolveConflicts index es = (st.truncateLog (index + k - 1), es.drop k) := by
  induction es with
  | nil =>
    intro index h
    simp [NoConflict] at h
  | cons e es ih =>
    intro index h
    rw [noConflict_cons, not_and_or] at h
    rw [resolveConflicts]
    by_cases hc : index ≤ st.latestIndex ∧ e.term ≠ st.getLogTerm index
    · refine ⟨0, e, rfl, (le_latestIndex_iff hne).1 hc.1, hc.2, ?_⟩
      rw [if_neg (by omega), if_pos hc.2]
      rfl
    · -- The conflict is further on, so the log reaches past `index`.
      have hrest : ¬ st.NoConflict (index + 1) es := by
        rcases h with h | h
        · exact absurd (by simpa using h) hc
        · exact h
      obtain ⟨k, e', hk, hlt, hne', heq⟩ := ih hrest
      have hle : index ≤ st.latestIndex := (le_latestIndex_iff hne).2 (by omega)
      have hterm : ¬ e.term ≠ st.getLogTerm index := fun h' ↦ hc ⟨hle, h'⟩
      refine ⟨k + 1, e', hk, by omega, by rwa [Nat.add_right_comm] at hne', ?_⟩
      rw [if_neg (by omega), if_neg hterm, heq]
      simp [Nat.add_right_comm]

/-! ### The stored log -/

theorem foldl_appendLogEntry (es : List LogEntry) :
    ∀ st : MemoryStore, es.foldl appendLogEntry st = { st with log := st.log ++ es } := by
  induction es with
  | nil => simp
  | cons e es ih =>
    intro st
    rw [foldl_cons, ih]
    simp [appendLogEntry]

variable {req : AppendEntriesRequest}

/-- **Without a conflict the log only grows**, by the entries past its end. -/
theorem storeEntries_log (hne : st.log ≠ [])
    (h : st.NoConflict (req.prevLogIndex + 1) req.entries) :
    (st.storeEntries req).log =
      st.log ++ req.entries.drop (st.log.length - (req.prevLogIndex + 1)) := by
  simp only [storeEntries, resolveConflicts_of_noConflict hne h, foldl_appendLogEntry]

/-- **A conflict costs one entry too many.** -/
theorem storeEntries_log_of_conflict (hne : st.log ≠ [])
    (h : ¬ st.NoConflict (req.prevLogIndex + 1) req.entries) :
    ∃ k e, req.entries[k]? = some e ∧ req.prevLogIndex + 1 + k < st.log.length ∧
      e.term ≠ st.getLogTerm (req.prevLogIndex + 1 + k) ∧
      (st.storeEntries req).log = st.log.take (req.prevLogIndex + k) ++ req.entries.drop k := by
  obtain ⟨k, e, hk, hlt, hterm, heq⟩ := resolveConflicts_of_conflict hne h
  refine ⟨k, e, hk, hlt, hterm, ?_⟩
  have hcut : req.prevLogIndex + 1 + k - 1 = req.prevLogIndex + k := by omega
  rw [hcut] at heq
  simp only [storeEntries, heq, foldl_appendLogEntry]
  rw [truncateLog_log (by omega)]

theorem exists_resolveConflicts_eq (st : MemoryStore) (es : List LogEntry) :
    ∀ index, ∃ l, (st.resolveConflicts index es).1 = { st with log := l } := by
  induction es with
  | nil => exact fun _ ↦ ⟨st.log, rfl⟩
  | cons e es ih =>
    intro index
    rw [resolveConflicts]
    split
    · exact ⟨st.log, rfl⟩
    · split
      · exact ⟨_, rfl⟩
      · exact ih _

@[simp] theorem storeEntries_currentTerm (st : MemoryStore) (req : AppendEntriesRequest) :
    (st.storeEntries req).currentTerm = st.currentTerm := by
  obtain ⟨l, hl⟩ := st.exists_resolveConflicts_eq req.entries (req.prevLogIndex + 1)
  simp [storeEntries, foldl_appendLogEntry, hl]

@[simp] theorem storeEntries_votedFor (st : MemoryStore) (req : AppendEntriesRequest) :
    (st.storeEntries req).votedFor = st.votedFor := by
  obtain ⟨l, hl⟩ := st.exists_resolveConflicts_eq req.entries (req.prevLogIndex + 1)
  simp [storeEntries, foldl_appendLogEntry, hl]

theorem resolveConflicts_with (st : MemoryStore) (v : Option (ℕ × ℕ)) (t : ℕ) (es : List LogEntry) :
    ∀ index, resolveConflicts { st with votedFor := v, currentTerm := t } index es =
      ({ (st.resolveConflicts index es).1 with votedFor := v, currentTerm := t },
        (st.resolveConflicts index es).2) := by
  induction es with
  | nil => exact fun _ ↦ rfl
  | cons e es ih =>
    intro index
    have hlatest : latestIndex { st with votedFor := v, currentTerm := t } =
        st.latestIndex := rfl
    have hterm : getLogTerm { st with votedFor := v, currentTerm := t } index =
        st.getLogTerm index := rfl
    simp only [resolveConflicts, hlatest, hterm, ih]
    split
    · rfl
    · split <;> rfl

theorem storeEntries_with_log (st : MemoryStore) (v : Option (ℕ × ℕ)) (t : ℕ)
    (req : AppendEntriesRequest) :
    (storeEntries { st with votedFor := v, currentTerm := t } req).log =
      (st.storeEntries req).log := by
  simp [storeEntries, foldl_appendLogEntry, resolveConflicts_with]

/-- The log keeps at least its first entry: a truncation to nothing is followed by an append. -/
theorem storeEntries_log_ne_nil (hne : st.log ≠ []) : (st.storeEntries req).log ≠ [] := by
  by_cases h : st.NoConflict (req.prevLogIndex + 1) req.entries
  · rw [storeEntries_log hne h]
    simp [hne]
  · obtain ⟨k, e, hk, -, -, heq⟩ := storeEntries_log_of_conflict hne h
    rw [heq]
    have hlt : k < req.entries.length := (List.getElem?_eq_some_iff.1 hk).1
    intro hnil
    have := congrArg length hnil
    simp at this
    omega

/-! ### The handler's assertion -/

/-- The request continues the log: it starts inside the log, reaches at least to its end, and
nowhere disagrees with it. -/
def Continues (req : AppendEntriesRequest) (st : MemoryStore) : Prop :=
  req.prevLogIndex ≤ st.latestIndex ∧ st.latestIndex ≤ req.lastIndex ∧
    st.NoConflict (req.prevLogIndex + 1) req.entries

instance (req : AppendEntriesRequest) (st : MemoryStore) : Decidable (Continues req st) :=
  inferInstanceAs (Decidable (_ ∧ _))

/-- **The assertion `lastIndex == latestIndex()` as a condition on the request and the log before
it.** It fails after every truncation, and also for a request that ends before the log does. -/
theorem lastIndex_eq_latestIndex_iff (hne : st.log ≠ []) :
    req.lastIndex = (st.storeEntries req).latestIndex ↔ Continues req st := by
  have hpos : 0 < st.log.length := length_pos_of_ne_nil hne
  rw [latestIndex_eq (storeEntries_log_ne_nil hne), Continues, le_latestIndex_iff hne,
    latestIndex_eq hne, AppendEntriesRequest.lastIndex]
  by_cases h : st.NoConflict (req.prevLogIndex + 1) req.entries
  · rw [storeEntries_log hne h, length_append, length_drop]
    simp only [h, and_true]
    omega
  · obtain ⟨k, e, hk, hlt, -, heq⟩ := storeEntries_log_of_conflict hne h
    have hkn : k < req.entries.length := (List.getElem?_eq_some_iff.1 hk).1
    rw [heq, length_append, length_take, length_drop]
    simp only [h, and_false, iff_false]
    omega

end Xzero.Raft.MemoryStore
