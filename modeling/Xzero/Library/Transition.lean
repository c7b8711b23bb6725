import Mathlib.Data.List.Basic

/-!
# Guarded runs of a transition system

A deterministic, partial transition system and its runs. A run is *guarded* by a predicate on a
state and the action taken there, so that "every run whose steps all meet `ok`" is a reachability
predicate, `Reach ok`, and not a separate notion of trace. The unguarded runs are those of
`fun _ _ ↦ True`.

* `Reach.invariant` is the one induction everything else goes through: what holds initially and
  is kept by each guarded step holds in every state reached.
* `run` executes a list of actions and checks the guard on the way, so a concrete run is exhibited
  by evaluation (`reach_of_run`).
-/

/-- A system with one initial state, whose steps are partial: `step s a = none` says that action
`a` is not enabled in `s`. -/
structure TransitionSystem (σ α : Type*) where
  /-- The state every run starts from. -/
  init : σ
  /-- The effect of an action, where it is enabled. -/
  step : σ → α → Option σ

namespace TransitionSystem

variable {σ α : Type*} (T : TransitionSystem σ α)

/-- The states reached by runs each of whose steps meets the guard `ok`, in the state it is taken
from. -/
inductive Reach (ok : σ → α → Prop) : σ → Prop
  | init : Reach ok T.init
  | step {s s' : σ} {a : α} : Reach ok s → ok s a → T.step s a = some s' → Reach ok s'

variable {T} {ok ok' : σ → α → Prop}

/-- **The invariant rule.** The step case may use that the state it starts from is reached, which
is how one invariant is built on another. -/
theorem Reach.invariant {P : σ → Prop} (hinit : P T.init)
    (hstep : ∀ {s s' : σ} {a : α}, T.Reach ok s → P s → ok s a → T.step s a = some s' → P s')
    {s : σ} (h : T.Reach ok s) : P s := by
  induction h with
  | init => exact hinit
  | step hs hok hst ih => exact hstep hs ih hok hst

theorem Reach.mono (h : ∀ s a, ok s a → ok' s a) {s : σ} (hs : T.Reach ok s) : T.Reach ok' s := by
  induction hs with
  | init => exact .init
  | step _ hok hst ih => exact ih.step (h _ _ hok) hst

/-! ### Executing a run -/

/-- Take the listed actions in order, checking the guard before each. -/
def runFrom (T : TransitionSystem σ α) (ok : σ → α → Prop) [∀ s a, Decidable (ok s a)] :
    σ → List α → Option σ
  | s, [] => some s
  | s, a :: as =>
    if ok s a then
      match T.step s a with
      | some s' => runFrom T ok s' as
      | none => none
    else none

theorem reach_of_runFrom [∀ s a, Decidable (ok s a)] {as : List α} :
    ∀ {s s' : σ}, T.Reach ok s → T.runFrom ok s as = some s' → T.Reach ok s' := by
  induction as with
  | nil =>
    intro s s' hs h
    simp only [runFrom, Option.some.injEq] at h
    exact h ▸ hs
  | cons a as ih =>
    intro s s' hs h
    simp only [runFrom] at h
    split at h
    · next hok =>
      split at h
      · next s₁ hst => exact ih (hs.step hok hst) h
      · cases h
    · cases h

/-- Take the listed actions from the initial state, checking the guard before each. -/
def run (T : TransitionSystem σ α) (ok : σ → α → Prop) [∀ s a, Decidable (ok s a)]
    (as : List α) : Option σ :=
  T.runFrom ok T.init as

theorem reach_of_run [∀ s a, Decidable (ok s a)] {as : List α} {s : σ}
    (h : T.run ok as = some s) : T.Reach ok s :=
  reach_of_runFrom .init h

/-- The form a concrete run is used in: what evaluation finds of its last state is found of a
reached one. -/
theorem exists_reach_of_run [∀ s a, Decidable (ok s a)] {P : σ → Prop} (as : List α)
    (h : ∃ s ∈ T.run ok as, P s) : ∃ s, T.Reach ok s ∧ P s := by
  obtain ⟨s, hs, hP⟩ := h
  exact ⟨s, reach_of_run hs, hP⟩

end TransitionSystem
