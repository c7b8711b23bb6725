import Xzero.Http.Client.Cluster

/-!
# The load of a member

An `HttpClusterMember` on its own, with the requests that it has accepted and that are not finished
yet. Sending a request may fail at once (`sent`), which the futures of `process` never do.
**The load is the number of these requests**, in every run (`carries_of_reach`).
-/

namespace Xzero.Http.Client

/-- A member and the requests it is busy with. -/
structure Worker where
  capacity : ℕ
  enabled : Bool
  state : HealthState := .undefined
  /-- `load_`, which goes down without a check. -/
  load : ℤ := 0
  requests : List ℕ := []

namespace Worker

/-- What can happen to a member. -/
inductive Action where
  | setCapacity (n : ℕ)
  | setEnabled (value : Bool)
  | setState (value : HealthState)
  | tryProcess (r : ℕ) (sent : Bool)
  | onFailure (r : ℕ)
  | onResponseReceived (r : ℕ)

/-- `HttpClusterMember::tryProcess(cr)` -/
def tryProcess (r : ℕ) (sent : Bool) (s : Worker) : SchedulerStatus × Worker :=
  if ¬ s.enabled then (.unavailable, s)
  else if s.state ≠ .online then (.unavailable, s)
  else if s.capacity ≠ 0 ∧ s.capacity ≤ s.load then (.overloaded, s)
  else if sent then (.success, { s with load := s.load + 1, requests := s.requests ++ [r] })
  else (.unavailable, { s with load := s.load + 1 - 1, state := .offline })

/-- The end of a request, with the health that the member has then. -/
def finish (r : ℕ) (state : HealthState) (s : Worker) : Option Worker :=
  if r ∈ s.requests then
    some { s with load := s.load - 1, requests := s.requests.erase r, state }
  else none

/-- The effect of an action. Only a request that was accepted is finished, and once. -/
def step (s : Worker) : Action → Option Worker
  | .setCapacity n => some { s with capacity := n }
  | .setEnabled value => some { s with enabled := value }
  | .setState value => some { s with state := value }
  | .tryProcess r sent => some (s.tryProcess r sent).2
  | .onFailure r => s.finish r .offline
  | .onResponseReceived r => s.finish r s.state

/-- A new member and what can happen to it. -/
def system (capacity : ℕ) (enabled : Bool) : TransitionSystem Worker Action where
  init := { capacity, enabled }
  step := step

/-- The load is what the member is busy with, and what it accepts next is within its capacity. -/
structure Carries (s : Worker) : Prop where
  load : s.load = s.requests.length
  nonneg : 0 ≤ s.load
  capacity : ∀ r sent s', s.tryProcess r sent = (.success, s') →
    s'.capacity = 0 ∨ s'.load ≤ s'.capacity

end Worker

end Xzero.Http.Client
