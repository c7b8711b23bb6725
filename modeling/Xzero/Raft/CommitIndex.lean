import Xzero.Raft.ServerSpec

/-!
# The commit index a leader computes

`computeCommitIndex` searches upwards from the lowest match index and keeps the last index that
enough followers have reached. `computeCommitIndex_spec` says what that is: **the highest index that
more than half of the followers it knows have reached**. Two things about this are not what the
protocol asks for, and later modules show what follows from them: the half is of the followers the
leader has bookkeeping for, not of the members; and the index may be below the present commit index,
since match indices can be set back.
-/

namespace Xzero.Raft.Server

open List Option AList

variable {σ : Type}

/-- More than half of the match indices are at least `n`. -/
def Reached (ms : List ℕ) (n : ℕ) : Prop := ms.length / 2 + 1 ≤ ms.countP (n ≤ ·)

instance (ms : List ℕ) (n : ℕ) : Decidable (Reached ms n) := inferInstanceAs (Decidable (_ ≤ _))

theorem foldl_highest {P : ℕ → Prop} [DecidablePred P] (l : List ℕ) : ∀ {low : ℕ}, P low →
      ∃ high, l.foldl (fun result n ↦ if P n ∧ result < n then n else result) low = high ∧
        P high ∧ low ≤ high ∧ ∀ n ∈ l, P n → n ≤ high := by
  induction l with
  | nil => exact fun h ↦ ⟨_, rfl, h, le_refl _, by simp⟩
  | cons n l ih =>
    intro low hlow
    simp only [foldl_cons, forall_mem_cons]
    split_ifs with h
    · obtain ⟨high, heq, hP, hle, hall⟩ := ih h.1
      exact ⟨high, heq, hP, by omega, fun _ ↦ hle, hall⟩
    · obtain ⟨high, heq, hP, hle, hall⟩ := ih hlow
      exact ⟨high, heq, hP, hle, fun hPn ↦ le_trans (not_lt.1 fun hlt ↦ h ⟨hPn, hlt⟩) hle, hall⟩

/-- **The commit index is the highest index that more than half of the known followers have
reached.** -/
theorem computeCommitIndex_spec {followers : AList fun _ : ℕ ↦ FollowerState}
    (hne : matchIndices followers ≠ []) :
    Reached (matchIndices followers) (computeCommitIndex followers) ∧
      ∀ n, Reached (matchIndices followers) n → n ≤ computeCommitIndex followers := by
  unfold computeCommitIndex
  generalize matchIndices followers = ms at hne
  obtain ⟨low, hlow⟩ : ∃ low, ms.min? = some low := isSome_iff_exists.1 (by simpa using hne)
  obtain ⟨high, hhigh⟩ : ∃ high, ms.max? = some high :=
    isSome_iff_exists.1 (by simpa using hne)
  have hmin : ∀ m ∈ ms, low ≤ m := fun m hm ↦ (min?_eq_some_iff.1 hlow).2 m hm
  have hmax : ∀ m ∈ ms, m ≤ high := fun m hm ↦ (max?_eq_some_iff.1 hhigh).2 m hm
  have hlen : 0 < ms.length := length_pos_of_ne_nil hne
  -- Every follower has reached the lowest match index.
  have hstart : Reached ms low := by
    have hall : ms.countP (low ≤ ·) = ms.length :=
      countP_eq_length.2 fun m hm ↦ decide_eq_true (hmin m hm)
    rw [Reached, hall]
    omega
  simp only [hlow, hhigh, getD_some]
  obtain ⟨_, rfl, hP, hle, hall⟩ := foldl_highest (range' low (high + 1 - low)) hstart
  refine ⟨hP, fun n hn ↦ ?_⟩
  rcases lt_or_ge n low with hlt | hge
  · exact le_trans (le_of_lt hlt) hle
  · -- Someone has reached `n`, so the search passes it.
    obtain ⟨m, hm, hnm⟩ := countP_pos_iff.1 (Nat.lt_of_lt_of_le (Nat.succ_pos _) hn)
    have hnm := of_decide_eq_true hnm
    have hmh := hmax m hm
    exact hall n (mem_range'_1.2 (by omega)) hn

/-- **The quorum position.** It is the match index in the middle once they are sorted from the
highest down. -/
theorem computeCommitIndex_sorted (followers : AList fun _ : ℕ ↦ FollowerState)
    (hne : matchIndices followers ≠ []) :
    Reached (matchIndices followers) (computeCommitIndex followers) ∧
      (∀ n, Reached (matchIndices followers) n → n ≤ computeCommitIndex followers) ∧
      ∀ l : List ℕ, l.Perm (matchIndices followers) → l.Pairwise (· ≥ ·) →
        l[(matchIndices followers).length / 2]? = some (computeCommitIndex followers) := by
  obtain ⟨hreached, hhighest⟩ := computeCommitIndex_spec hne
  refine ⟨hreached, hhighest, fun l hperm hsorted ↦ ?_⟩
  generalize hms : matchIndices followers = ms at hne hreached hhighest hperm
  have hmid : ms.length / 2 < l.length := by
    have := length_pos_of_ne_nil hne
    rw [hperm.length_eq]
    omega
  obtain ⟨above, v, below, rfl, hlen⟩ : ∃ above v below, l = above ++ v :: below ∧
      above.length = ms.length / 2 :=
    ⟨l.take _, _, _, by rw [← drop_eq_getElem_cons hmid, take_append_drop],
      length_take_of_le (Nat.le_of_lt hmid)⟩
  obtain ⟨-, hbelow, habove⟩ := pairwise_append.1 hsorted
  rw [← hlen, getElem?_append_right le_rfl, Nat.sub_self]
  refine congrArg some (Nat.le_antisymm (hhighest v ?_) (Nat.le_of_not_lt fun hlt ↦ ?_))
  · -- The middle one and those above it are as high as it is.
    have hall : above.countP (v ≤ ·) = above.length :=
      countP_eq_length.2 fun m hm ↦ decide_eq_true (habove m hm v mem_cons_self)
    rw [Reached, ← hperm.countP_eq, countP_append, hall, countP_cons_of_pos (by simp)]
    omega
  · -- The middle one and those below it are too low.
    have hnone : (v :: below).countP (computeCommitIndex followers ≤ ·) = 0 := by
      refine countP_eq_zero.2 fun m hm ↦ ?_
      have hle : m ≤ v := by
        rcases mem_cons.1 hm with rfl | hm
        · exact le_rfl
        · exact (pairwise_cons.1 hbelow).1 m hm
      simpa using Nat.lt_of_le_of_lt hle hlt
    have hcount := above.countP_le_length (p := (computeCommitIndex followers ≤ ·))
    rw [Reached, ← hperm.countP_eq, countP_append, hnone] at hreached
    omega

theorem computeCommitIndex_three : ∃ followers, matchIndices followers ≠ [] ∧
    [5, 3, 2][(matchIndices followers).length / 2]? = some (computeCommitIndex followers) :=
  ⟨recordResponse (recordResponse (recordResponse ∅ 1 ⟨1, 3, true⟩) 2 ⟨1, 2, true⟩) 3 ⟨1, 5, true⟩,
    by decide, (computeCommitIndex_sorted _ (by decide)).2.2 _ (by decide) (by decide)⟩

/-! ### Where match indices come from -/

section

variable {followers : AList fun _ : ℕ ↦ FollowerState} {peer q m : ℕ} {fs : FollowerState}

theorem mem_matchIndices :
    m ∈ matchIndices followers ↔ ∃ q fs, followers.lookup q = some fs ∧ fs.matchIndex = m := by
  rw [matchIndices, List.mem_map]
  constructor
  · rintro ⟨⟨q, fs⟩, hmem, rfl⟩
    exact ⟨q, fs, mem_lookup_iff.2 hmem, rfl⟩
  · rintro ⟨q, fs, hlookup, rfl⟩
    exact ⟨⟨q, fs⟩, mem_lookup_iff.1 hlookup, rfl⟩

theorem exists_followers_of_reached {n : ℕ} (h : Reached (matchIndices followers) n) :
    ∃ V : List ℕ, V.Nodup ∧ (matchIndices followers).length / 2 + 1 ≤ V.length ∧
      ∀ q ∈ V, ∃ fs, followers.lookup q = some fs ∧ n ≤ fs.matchIndex := by
  refine ⟨(followers.entries.filter fun f ↦ n ≤ f.2.matchIndex).map Sigma.fst, ?_, ?_, ?_⟩
  · exact (filter_sublist.map Sigma.fst).nodup followers.nodupKeys
  · rw [length_map, ← countP_eq_length_filter]
    rwa [Reached, matchIndices, countP_map] at h
  · intro q hq
    obtain ⟨⟨q, fs⟩, hmem, rfl⟩ := mem_map.1 hq
    obtain ⟨hmem, hle⟩ := mem_filter.1 hmem
    exact ⟨fs, mem_lookup_iff.2 hmem, of_decide_eq_true hle⟩

theorem matchIndices_ne_nil {resp : AppendEntriesResponse}
    {followers' : AList fun _ : ℕ ↦ FollowerState}
    (h : followers' = recordResponse followers peer resp) : matchIndices followers' ≠ [] := by
  rw [h]
  exact ne_nil_of_mem (mem_matchIndices.2 ⟨peer, _, lookup_insert followers, rfl⟩)

theorem lookup_insert_cases {fs' : FollowerState}
    (h : (followers.insert peer fs').lookup q = some fs) :
    q = peer ∧ fs = fs' ∨ followers.lookup q = some fs := by
  rcases eq_or_ne q peer with rfl | hne
  · rw [lookup_insert] at h
    exact .inl ⟨rfl, (some.inj h).symm⟩
  · rw [lookup_insert_ne hne] at h
    exact .inr h

theorem lookup_foldl_insertIfAbsent_cases (l : List ℕ) :
    ∀ {followers : AList fun _ : ℕ ↦ FollowerState},
      (l.foldl (insertIfAbsent · · .zero) followers).lookup q = some fs →
      q ∈ l ∧ fs = .zero ∨ followers.lookup q = some fs := by
  induction l with
  | nil => exact fun h ↦ .inr h
  | cons p l ih =>
    intro followers h
    rcases ih h with ⟨hq, hfs⟩ | h
    · exact .inl ⟨mem_cons_of_mem p hq, hfs⟩
    · simp only [insertIfAbsent] at h
      split at h
      · exact .inr h
      · rcases lookup_insert_cases h with ⟨rfl, hfs⟩ | h
        · exact .inl ⟨mem_cons_self, hfs⟩
        · exact .inr h

end

section

variable {cfg : Config σ} {s s' : Server σ} {inp : Input} {out : List Packet}
  (h : Effect cfg s inp s' out)
include h

/-- Why a server believes that a peer has reached an index: it believed so before; it has just
begun to track the peer, at index zero; or the peer has just said so. -/
theorem Effect.lookup_followers {q : ℕ} {fs : FollowerState}
    (hq : s'.followers.lookup q = some fs) :
    (∃ fs₀, s.followers.lookup q = some fs₀ ∧ fs₀.matchIndex = fs.matchIndex) ∨
      (fs.matchIndex = 0 ∧ (q ∈ cfg.peers s.id ∨ q ∈ s.loopTasks ∨ q ∈ s.loops)) ∨
      ∃ resp, inp = .receive q (.appendEntriesResponse resp) ∧
        fs.matchIndex = if resp.success then resp.lastLogIndex else 0 := by
  have hkeep : s.followers.lookup q = some fs →
      ∃ fs₀, s.followers.lookup q = some fs₀ ∧ fs₀.matchIndex = fs.matchIndex :=
    fun hq ↦ ⟨fs, hq, rfl⟩
  -- A round leaves the match index of its peer.
  have hround : ∀ {peer : ℕ} {fs' : FollowerState},
      (s.followers.insert peer fs').lookup q = some fs →
      fs'.matchIndex = (s.followerState peer).matchIndex →
      (∃ fs₀, s.followers.lookup q = some fs₀ ∧ fs₀.matchIndex = fs.matchIndex) ∨
        fs.matchIndex = 0 ∧ q = peer := by
    intro peer fs' hq hfs
    rcases lookup_insert_cases hq with ⟨rfl, rfl⟩ | hq
    · rw [followerState] at hfs
      rcases hl : s.followers.lookup q with - | fs₀ <;> rw [hl] at hfs
      · exact .inr ⟨hfs, rfl⟩
      · exact .inl ⟨fs₀, rfl, hfs.symm⟩
    · exact .inl (hkeep hq)
  cases h with
  | voteGranted hle => rw [grantVote_adoptTerm_eq hle] at hq; exact .inl (hkeep hq)
  | appendAborted | appendCommitted | appendStored =>
    rw [acceptEntries_eq] at hq
    exact .inl (hkeep hq)
  | @responseRecorded src resp | @responseCommitted src resp =>
    rcases lookup_insert_cases hq with ⟨rfl, rfl⟩ | hq
    · exact .inr (.inr ⟨resp, rfl, rfl⟩)
    · exact .inl (hkeep hq)
  | commandStored | stored =>
    rcases lookup_foldl_insertIfAbsent_cases _ hq with ⟨hpeer, rfl⟩ | hq
    · exact .inr (.inl ⟨rfl, .inl hpeer⟩)
    · exact .inl (hkeep hq)
  | loopBegun hp =>
    rcases lookup_insert_cases hq with ⟨rfl, rfl⟩ | hq
    · exact .inr (.inl ⟨rfl, .inr (.inl hp)⟩)
    · exact .inl (hkeep hq)
  | replicateFailed hp | heartbeat hp | replicated hp =>
    rcases hround hq rfl with hold | ⟨hzero, rfl⟩
    · exact .inl hold
    · exact .inr (.inl ⟨hzero, .inr (.inr hp)⟩)
  | applied =>
    obtain ⟨m, p, w, l, new, heq, -⟩ := applyLogs_eq cfg s
    rw [heq] at hq
    exact .inl (hkeep hq)
  | _ => exact .inl (hkeep hq)

/-- The commit index is assigned by an accepted request, or by a response to a leader. -/
theorem Effect.commitIndex_cases : s'.commitIndex = s.commitIndex ∨
      (∃ src req, inp = .receive src (.appendEntriesRequest req) ∧ s.Accepts req ∧
        s.commitIndex < req.leaderCommit ∧ s'.commitIndex = min req.leaderCommit req.lastIndex) ∨
      ∃ src resp, inp = .receive src (.appendEntriesResponse resp) ∧ s.state = .leader ∧
        s'.followers = recordResponse s.followers src resp ∧
        s'.commitIndex = computeCommitIndex s'.followers := by
  cases h with
  | voteGranted hle => rw [grantVote_adoptTerm_eq hle]; exact .inl rfl
  | appendAborted | appendStored => rw [acceptEntries_eq]; exact .inl rfl
  | @appendCommitted src req hacc hlt => exact .inr (.inl ⟨src, req, rfl, hacc, hlt, rfl⟩)
  | responseRecorded => exact .inl rfl
  | @responseCommitted src resp hl => exact .inr (.inr ⟨src, resp, rfl, hl, rfl, rfl⟩)
  | applied =>
    obtain ⟨m, p, w, l, new, heq, -⟩ := applyLogs_eq cfg s
    rw [heq]
    exact .inl rfl
  | _ => exact .inl rfl

end

theorem Effect.store_of_response {cfg : Config σ} {s s' : Server σ} {out : List Packet} {src : ℕ}
    {resp : AppendEntriesResponse}
    (h : Effect cfg s (.receive src (.appendEntriesResponse resp)) s' out) :
    s'.toMemoryStore = s.toMemoryStore := by
  cases h <;> rfl

end Xzero.Raft.Server
