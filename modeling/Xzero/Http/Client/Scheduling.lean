import Xzero.Http.Client.Cluster

/-!
# The schedulers of a cluster

A scheduler asks the members of a cluster one after another to take a request, which is
`tryProcess`. What a member answers is arbitrary here (`answer`), and members are their positions.

* Both schedulers **try every member** and report what came of it, if the number of members that
  are unavailable fits the counter of `RoundRobin` (`tries_iff`).
* `RoundRobin` leaves its position at the member that took the last request. So it is **fair** to
  one member, or for one request, only (`fair_iff`).
-/

namespace Xzero.Http.Client.Scheduling

open List

variable {answer : ℕ → SchedulerStatus} {finish : ℕ → SchedulerStatus} {limit next count : ℕ}
  {is : List ℕ}

/-- What `schedule` returns, and the members that it has asked. -/
abbrev Outcome := SchedulerStatus × List ℕ

def Outcome.cons (i : ℕ) (o : Outcome) : Outcome := (o.1, i :: o.2)

/-- The loop of `RoundRobin::schedule(cr)`, with the number of rounds to go, and `next_` after it. -/
def roundRobin (answer : ℕ → SchedulerStatus) (limit : ℕ) : ℕ → BitVec 32 → ℕ → Outcome × ℕ
  | 0, unavailable, next =>
    ((if unavailable.toNat = limit then .unavailable else .overloaded, []), next)
  | count + 1, unavailable, next =>
    let next := if limit ≤ next then 0 else next
    match answer next with
    | .success => ((.success, [next]), next)
    | .unavailable => (roundRobin answer limit count (unavailable + 1#32) (next + 1)).map (·.cons next) id
    | .overloaded => (roundRobin answer limit count unavailable (next + 1)).map (·.cons next) id

/-- A loop over the members that remain, with what it returns at the end. -/
def ask (answer finish : ℕ → SchedulerStatus) : List ℕ → ℕ → Outcome
  | [], unavailable => (finish unavailable, [])
  | i :: is, unavailable =>
    match answer i with
    | .success => (.success, [i])
    | .unavailable => (ask answer finish is (unavailable + 1)).cons i
    | .overloaded => (ask answer finish is unavailable).cons i

/-- `Chance::schedule(cr)` -/
def chance (answer : ℕ → SchedulerStatus) (limit : ℕ) : Outcome :=
  ask answer (fun unavailable ↦ if unavailable < limit then .overloaded else .unavailable)
    (range limit) 0

/-- What should come of a search among `limit` members. -/
structure Tries (answer : ℕ → SchedulerStatus) (limit : ℕ) (o : Outcome) : Prop where
  once : o.2.Nodup ∧ ∀ i ∈ o.2, i < limit
  /-- Only the last one that is asked takes the request. -/
  stops : ∀ i ∈ o.2.dropLast, answer i ≠ .success
  success : o.1 = .success ↔ ∃ i ∈ o.2, answer i = .success
  unavailable : o.1 = .unavailable ↔ ∀ i < limit, i ∈ o.2 ∧ answer i = .unavailable

/-! ### The order -/

/-- The members in the order in which `RoundRobin` comes to them. -/
def order (limit : ℕ) : ℕ → ℕ → List ℕ
  | 0, _ => []
  | count + 1, next =>
    let next := if limit ≤ next then 0 else next
    next :: order limit count (next + 1)

theorem order_of_le (h : limit ≤ next) : order limit count next = order limit count 0 := by
  cases count with
  | zero => rfl
  | succ count => rw [order, order, if_pos h, ite_self]

theorem order_add (h : next + count ≤ limit) (n : ℕ) :
    order limit (count + n) next = range' next count ++ order limit n (next + count) := by
  induction count generalizing next with
  | zero => rw [zero_add, range'_zero, nil_append, add_zero]
  | succ count ih =>
    rw [add_right_comm, order, if_neg (by omega), ih (by omega), range'_succ, add_right_comm next]
    rfl

theorem order_zero (h : count ≤ limit) : order limit count 0 = range count := by
  have hadd := order_add (by omega : 0 + count ≤ limit) 0
  rwa [order, append_nil, ← range_eq_range'] at hadd

/-- All members have their turn. -/
theorem order_perm (limit next : ℕ) : (order limit limit next).Perm (range limit) := by
  rcases le_or_gt limit next with h | h
  · rw [order_of_le h, order_zero le_rfl]
  · have hadd := order_add (by omega : next + (limit - next) ≤ limit) next
    rw [Nat.sub_add_cancel h.le, Nat.add_sub_cancel' h.le, order_of_le le_rfl,
      order_zero h.le] at hadd
    have hrange := range'_append_1 (s := 0) (m := next) (n := limit - next)
    rw [Nat.add_sub_cancel' h.le, ← range_eq_range', ← range_eq_range', Nat.zero_add] at hrange
    rw [hadd, ← hrange]
    exact perm_append_comm

/-! ### One search -/

/-- `RoundRobin` asks the members in this order. -/
theorem roundRobin_eq (unavailable : ℕ) :
    (roundRobin answer limit count (.ofNat 32 unavailable) next).1 =
      ask answer (fun k ↦ if k % 2 ^ 32 = limit then .unavailable else .overloaded)
        (order limit count next) unavailable := by
  induction count generalizing next unavailable with
  | zero => rw [roundRobin, order, ask, BitVec.toNat_ofNat]
  | succ count ih =>
    rw [roundRobin, order, ask]
    generalize (if limit ≤ next then 0 else next) = i
    cases answer i with
    | success => rfl
    | unavailable => exact congrArg (Outcome.cons i) (BitVec.ofNat_add unavailable 1 ▸ ih (unavailable + 1))
    | overloaded => exact congrArg (Outcome.cons i) (ih unavailable)

/-- What a loop comes to: it asks the members in turn, up to the first that takes the request. -/
structure Asks (answer finish : ℕ → SchedulerStatus) (is : List ℕ) (unavailable : ℕ) (o : Outcome) :
    Prop where
  sublist : o.2.Sublist is
  stops : ∀ i ∈ o.2.dropLast, answer i ≠ .success
  success : o.1 = .success ↔ ∃ i ∈ o.2, answer i = .success
  finished : o.1 ≠ .success → o = (finish (unavailable + is.countP (answer · = .unavailable)), is)

theorem Asks.cons {i k unavailable : ℕ} {o : Outcome} (h : Asks answer finish is k o)
    (hi : answer i ≠ .success) (hk : k + is.countP (answer · = .unavailable) =
      unavailable + (i :: is).countP (answer · = .unavailable)) :
    Asks answer finish (i :: is) unavailable (o.cons i) := by
  refine ⟨h.sublist.cons_cons i, ?_, by simpa [Outcome.cons, hi] using h.success, fun hne ↦ ?_⟩
  · obtain ⟨status, - | ⟨j, js⟩⟩ := o
    · exact forall_mem_nil _
    · exact forall_mem_cons.2 ⟨hi, h.stops⟩
  · rw [h.finished hne, ← hk]
    rfl

theorem ask_asks (answer : ℕ → SchedulerStatus) (hfinish : ∀ k, finish k ≠ .success) (is : List ℕ)
    (unavailable : ℕ) :
    Asks answer finish is unavailable (ask answer finish is unavailable) := by
  induction is generalizing unavailable with
  | nil => exact ⟨.slnil, forall_mem_nil _, by simp [ask, hfinish], fun _ ↦ rfl⟩
  | cons i is ih =>
    rw [ask]
    cases hi : answer i with
    | success => exact ⟨(nil_sublist is).cons_cons i, forall_mem_nil _, by simp [hi], (absurd rfl ·)⟩
    | unavailable => exact (ih (unavailable + 1)).cons (by simp [hi]) (by simp [hi]; omega)
    | overloaded => exact (ih unavailable).cons (by simp [hi]) (by simp [hi])

/-- A search of all members does what it should if it notices that all are unavailable. -/
theorem tries_iff_full (hperm : is.Perm (range limit)) (hfinish : ∀ k, finish k ≠ .success)
    (hfull : ∀ k ≤ limit, finish k = .unavailable → k = limit) :
    Tries answer limit (ask answer finish is 0) ↔
      finish limit = .unavailable ∨ ∃ i < limit, answer i ≠ .unavailable := by
  have hmem (i : ℕ) : i ∈ is ↔ i < limit := hperm.mem_iff.trans mem_range
  have hasks := ask_asks answer hfinish is 0
  have hle := countP_le_length (p := (answer · = SchedulerStatus.unavailable)) (l := is)
  have hcount := countP_eq_length (p := (answer · = SchedulerStatus.unavailable)) (l := is)
  rw [hperm.length_eq, length_range] at hle hcount
  simp only [hmem, decide_eq_true_eq] at hcount
  generalize ask answer finish is 0 = o at hasks
  have hall (h : ∀ i < limit, answer i = .unavailable) : o = (finish limit, is) := by
    rw [hasks.finished, hcount.2 h, zero_add]
    rw [ne_eq, hasks.success]
    rintro ⟨i, hi, hs⟩
    cases (h i ((hmem i).1 (hasks.sublist.subset hi))).symm.trans hs
  constructor
  · intro h
    by_contra! hno
    have heq := hall hno.2
    rw [heq] at h
    exact hno.1 (h.unavailable.2 fun i hi ↦ ⟨(hmem i).2 hi, hno.2 i hi⟩)
  · intro h
    refine ⟨⟨(hperm.nodup_iff.2 nodup_range).sublist hasks.sublist,
      fun i hi ↦ (hmem i).1 (hasks.sublist.subset hi)⟩, hasks.stops, hasks.success,
      fun hu ↦ ?_, fun hu ↦ ?_⟩
    · have heq := hasks.finished (by simp [hu])
      rw [heq] at hu
      have hav := hcount.1 ((zero_add _).symm.trans (hfull _ (by omega) hu))
      rw [heq]
      exact fun i hi ↦ ⟨(hmem i).2 hi, hav i hi⟩
    · rw [hall fun i hi ↦ (hu i hi).2]
      exact h.resolve_right fun ⟨i, hi, hne⟩ ↦ hne (hu i hi).2

theorem tries_roundRobin_iff : Tries answer limit (roundRobin answer limit limit 0#32 next).1 ↔
    limit < 2 ^ 32 ∨ ∃ i < limit, answer i ≠ .unavailable := by
  have hfull (k : ℕ) (h : (if k % 2 ^ 32 = limit then .unavailable else .overloaded) =
      SchedulerStatus.unavailable) : k % 2 ^ 32 = limit := by
    by_contra hne
    rw [if_neg hne] at h
    cases h
  rw [roundRobin_eq 0, tries_iff_full (order_perm limit next)]
  · refine or_congr_left ⟨fun h ↦ hfull limit h ▸ Nat.mod_lt _ (by decide), fun h ↦ ?_⟩
    rw [if_pos (Nat.mod_eq_of_lt h)]
  · intro k
    split <;> decide
  · exact fun k hk h ↦ hk.antisymm ((hfull k h).ge.trans (Nat.mod_le _ _))

theorem tries_chance : Tries answer limit (chance answer limit) := by
  rw [chance, tries_iff_full (.refl _)]
  · rw [if_neg (lt_irrefl limit)]
    exact .inl rfl
  · intro k
    split <;> decide
  · intro k hk h
    split at h
    · cases h
    · omega

/-- The members that take some requests, one after another, if every member takes every request. -/
def takers (limit : ℕ) : ℕ → ℕ → List ℕ
  | 0, _ => []
  | calls + 1, next =>
    let o := roundRobin (fun _ ↦ .success) limit limit 0#32 next
    o.1.2 ++ takers limit calls o.2

/-- No member gets two requests more than another. -/
def Fair (limit next calls : ℕ) : Prop :=
  ∀ i < limit, ∀ j < limit, (takers limit calls next).count i ≤ (takers limit calls next).count j + 1

theorem takers_eq (h : 0 < limit) (calls : ℕ) :
    takers limit calls next = replicate calls (if limit ≤ next then 0 else next) := by
  obtain ⟨n, rfl⟩ := Nat.exists_eq_add_of_lt h
  induction calls generalizing next with
  | zero => rfl
  | succ calls ih =>
    have hlt : ¬ 0 + n + 1 ≤ if 0 + n + 1 ≤ next then 0 else next := by split <;> omega
    rw [takers, roundRobin, ih, if_neg hlt]
    rfl

/-- **When `RoundRobin` is fair**: every request goes to the same member. -/
theorem fair_iff (limit next calls : ℕ) : Fair limit next calls ↔ limit ≤ 1 ∨ calls ≤ 1 := by
  rcases eq_zero_or_pos limit with rfl | hpos
  · exact iff_of_true (fun i hi ↦ absurd hi (Nat.not_lt_zero i)) (.inl (Nat.zero_le 1))
  · rw [Fair, takers_eq hpos]
    have hlt : (if limit ≤ next then 0 else next) < limit := by split <;> omega
    generalize (if limit ≤ next then 0 else next) = k at hlt
    simp only [count_replicate]
    constructor
    · intro h
      by_contra! hno
      have hother := h k hlt (if k = 0 then 1 else 0) (by split <;> omega)
      have hne : ¬ k = if k = 0 then 1 else 0 := by split <;> omega
      simp [hne] at hother
      omega
    · intro h i hi j hj
      have hij : limit ≤ 1 → i = j := by omega
      split <;> split <;> simp_all
      omega

theorem not_fair : ¬ Fair 2 0 2 := by
  intro h
  exact absurd (h 0 (by decide) 1 (by decide)) (by decide)

end Xzero.Http.Client.Scheduling
