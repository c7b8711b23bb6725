import Xzero.Library.Transition
import Xzero.TokenShaper.Node

/-!
# The HTTP cluster

A cluster passes each request it is given to one of its members. A request needs a token of its
bucket, a node of the cluster's shaper, and waits in the bucket's queue when there is no token or no
member to take it.

Everything is driven by callbacks, and a state here is what lies between two of them: next to
the objects of the source it has the requests that are with a member (`processing`, each a
future that is yet to be fulfilled), the closures that were posted to an executor and did not
run yet (`posted`), and a `log` of what was observed. Callbacks run in any order. Requests
are numbered in the order in which they are scheduled; members are named by numbers as well,
which are never used twice, like the addresses of objects that are still referred to.

A step is `none` when an assertion of the source fails, and when a callback refers to a member that
was removed. The number of tokens is computed by multiplication with a `float`, which `toFloat`
models for the root of the shaper; further down percentages are exact.
-/

namespace Xzero.Http.Client

open TokenShaper

open TokenShaper (Address)

/-! ### Objects -/

/-- `HttpHealthMonitor::State` -/
inductive HealthState where
  | undefined
  | offline
  | online
deriving DecidableEq, Repr

/-- `HttpClusterSchedulerStatus` -/
inductive SchedulerStatus where
  | success
  | unavailable
  | overloaded
deriving DecidableEq, Repr

/-- A member of a cluster with its health monitor. A `capacity` of zero is no limit. -/
structure Member where
  id : ℕ
  name : String
  capacity : ℕ
  enabled : Bool
  load : ℕ := 0
  state : HealthState := .undefined
  consecutiveSuccessCount : ℕ := 0
deriving DecidableEq, Repr

/-- What a cluster keeps with a request. -/
structure Request where
  bucket : Address
  backend : Option ℕ := none
  tryCount : ℕ := 0
  tokens : ℕ := 0
deriving DecidableEq, Repr

/-- The schedulers that `setScheduler` knows. -/
inductive Scheduler where
  | roundRobin
  | chance
deriving DecidableEq, Repr

/-- The configuration of a cluster. -/
structure Settings where
  enabled : Bool := true
  stickyOfflineMode : Bool := false
  enqueueOnUnavailable : Bool := true
  queueLimit : ℕ := 1000
  maxRetryCount : ℕ := 3
  healthCheckSuccessThreshold : ℕ := 3
  scheduler : Scheduler := .roundRobin

/-- A posted closure: of `dequeueTo`, and of `onTimeout`. -/
inductive Task where
  | dequeued (request member : ℕ)
  | timedOut (request : ℕ)
deriving DecidableEq, Repr

/-- The request that a closure is about. -/
def Task.request : Task → ℕ
  | .dequeued r _ => r
  | .timedOut r => r

/-- What is observed of a request: a member takes it, a member fails it, its listener gets a
complete response. -/
inductive Event where
  | handed (request member : ℕ)
  | failed (request member : ℕ)
  | answered (request status : ℕ)
deriving DecidableEq, Repr

/-- A cluster between two callbacks. -/
structure Cluster where
  shaper : TokenShaper.Tree ℕ
  members : List Member := []
  /-- `next_` of the round-robin scheduler. -/
  next : ℕ := 0
  fresh : ℕ := 0
  requests : List Request := []
  processing : List (ℕ × ℕ) := []
  posted : List Task := []
  log : List Event := []

/-- The clock, as `enqueue` reads it twice. -/
structure Clock where
  ctime : ℕ
  now : ℕ

namespace Cluster

def setRequest (r : ℕ) (f : Request → Request) (s : Cluster) : Cluster :=
  { s with requests := s.requests.modify r f }

/-- `cr->tokens = n` -/
def setTokens (r n : ℕ) : Cluster → Cluster := setRequest r fun x ↦ { x with tokens := n }

/-- `cr->backend = m` -/
def setBackend (r : ℕ) (m : Option ℕ) : Cluster → Cluster :=
  setRequest r fun x ↦ { x with backend := m }

/-- The member of a name, while it exists. -/
def member? (m : ℕ) (s : Cluster) : Option Member := s.members.find? (·.id == m)

def setMember (m : ℕ) (f : Member → Member) (s : Cluster) : Cluster :=
  { s with members := s.members.map fun x ↦ if x.id = m then f x else x }

def observe (e : Event) (s : Cluster) : Cluster := { s with log := s.log ++ [e] }

/-! ### The number of tokens -/

/-- The single-precision number nearest to a natural number, the one with the even
significand of 24 bits where there are two. -/
def toFloat (n : ℕ) : ℕ :=
  let e := n.log2 - 23
  let q := n / 2 ^ e
  let r := n % 2 ^ e
  if 2 ^ e < 2 * r ∨ 2 * r = 2 ^ e ∧ q % 2 = 1 then (q + 1) * 2 ^ e else q * 2 ^ e

/-- The difference of two `size_t`. -/
def sub (a b : ℕ) : ℕ := (a + (2 ^ 64 - b % 2 ^ 64)) % 2 ^ 64

/-- `shaper()->resize(capacity)`. The product with the percentage of the root is a `float`,
which must fit a `size_t` again. -/
def resize (capacity : ℕ) (s : Cluster) : Option Cluster :=
  if s.shaper.label.rate = capacity then some s
  else if toFloat capacity < 2 ^ 64 then
    let x := s.shaper.label
    some { s with
      shaper := refresh
        { x with
          rate := portion (toFloat capacity) x.ratePercent
          ceil := portion (toFloat capacity) x.ceilPercent } s.shaper.children }
  else none

/-! ### Members -/

/-- `HttpClusterMember::tryProcess(cr)`. Sending the request to the member does not fail at
once, so it is the checks that decide. -/
def tryProcess (x : Member) (r : ℕ) (s : Cluster) : SchedulerStatus × Cluster :=
  if ¬ x.enabled then (.unavailable, s)
  else if x.state ≠ .online then (.unavailable, s)
  else if x.capacity ≠ 0 ∧ x.capacity ≤ x.load then (.overloaded, s)
  else
    let s := s.setMember x.id fun x ↦ { x with load := x.load + 1 }
    let s := s.setBackend r (some x.id)
    (.success, { s with processing := s.processing ++ [(r, x.id)] }.observe (.handed r x.id))

/-- The loop of `RoundRobin::schedule(cr)`, with the number of rounds to go. -/
def roundRobin (r limit : ℕ) : ℕ → ℕ → Cluster → Option (SchedulerStatus × Cluster)
  | 0, unavailable, s => some (if unavailable = limit then .unavailable else .overloaded, s)
  | count + 1, unavailable, s =>
    let next := if limit ≤ s.next then 0 else s.next
    match s.members[next]? with
    | none => none
    | some x =>
      match tryProcess x r { s with next := next } with
      | (.success, s) => some (.success, s)
      | (.unavailable, s) =>
        roundRobin r limit count (unavailable + 1) { s with next := next + 1 }
      | (.overloaded, s) => roundRobin r limit count unavailable { s with next := next + 1 }

/-- The loop of `Chance::schedule(cr)` over the members that remain. -/
def chance (r limit : ℕ) : List Member → ℕ → Cluster → SchedulerStatus × Cluster
  | [], unavailable, s => (if unavailable < limit then .overloaded else .unavailable, s)
  | x :: xs, unavailable, s =>
    match tryProcess x r s with
    | (.success, s) => (.success, s)
    | (.unavailable, s) => chance r limit xs (unavailable + 1) s
    | (.overloaded, s) => chance r limit xs unavailable s

/-- `scheduler()->schedule(cr)` -/
def scheduleMember (c : Settings) (r : ℕ) (s : Cluster) : Option (SchedulerStatus × Cluster) :=
  match c.scheduler with
  | .roundRobin => roundRobin r s.members.length s.members.length 0 s
  | .chance => some (chance r s.members.length s.members 0 s)

/-! ### Queues and responses -/

/-- `onTimeout(cr)`, for all the requests that timed out. -/
def onTimeout (late : List ℕ) (s : Cluster) : Cluster :=
  { s with posted := s.posted ++ late.map .timedOut }

def dequeueTo (m : ℕ) (s : Cluster) : Option Cluster :=
  match dequeue [] s.shaper with
  | none => none
  | some (none, t) => some { s with shaper := t }
  | some (some (_, r), t) => some { s with shaper := t, posted := s.posted ++ [.dequeued r m] }

/-- `HttpClusterMember::release()`, which is `onProcessingSucceed` of the cluster. -/
def release (m : ℕ) (s : Cluster) : Option Cluster :=
  match s.member? m with
  | none => none
  | some _ => dequeueTo m s

/-- `HttpClusterRequest::onMessageEnd()`, at the end of a response of some status. -/
def onMessageEnd (r status : ℕ) (s : Cluster) : Option Cluster :=
  match s.requests[r]? with
  | none => none
  | some x =>
    if x.tokens = 0 then some (s.observe (.answered r status))
    else
      match x.backend, put x.bucket x.tokens s.shaper with
      | some m, some t => (release m { s with shaper := t }).map (observe (.answered r status))
      | _, _ => none

def serviceUnavailable (r status : ℕ) (s : Cluster) : Option Cluster := onMessageEnd r status s

def enqueue (c : Settings) (r : ℕ) (clock : Clock) (s : Cluster) : Option Cluster :=
  match s.requests[r]? with
  | none => none
  | some x =>
    match s.shaper.label? x.bucket with
    | none => none
    | some bucket =>
      if bucket.queue.length < c.queueLimit then
        let late := enqueueTimedOut x.bucket r clock.ctime clock.now s.shaper
        let t := TokenShaper.enqueue x.bucket r clock.ctime clock.now s.shaper
        some ({ s.setBackend r none with shaper := t }.onTimeout late)
      else serviceUnavailable r 503 s

def verifyTryCount (c : Settings) (r : ℕ) (s : Cluster) : Option (Bool × Cluster) :=
  match s.requests[r]? with
  | none => none
  | some x =>
    if x.tryCount ≤ c.maxRetryCount then some (true, s)
    else (serviceUnavailable r 503 s).map fun s ↦ (false, s)

def reschedule (c : Settings) (r : ℕ) (clock : Clock) (s : Cluster) : Option Cluster :=
  match verifyTryCount c r s with
  | none => none
  | some (false, s) => some s
  | some (true, s) =>
    match scheduleMember c r s with
    | none => none
    | some (.success, s) => some s
    | some (_, s) => enqueue c r clock s

/-- `schedule(cr, bucket)`, for a request that is new. -/
def schedule (c : Settings) (p : Address) (clock : Clock) (s : Cluster) : Option Cluster :=
  match s.shaper.label? p with
  | none => none
  | some bucket =>
    let r := s.requests.length
    let s := { s with requests := s.requests ++ [{ bucket := p }] }
    if ¬ c.enabled then serviceUnavailable r 503 s
    else
      let (n, t) := get p 1 s.shaper
      let s := { s with shaper := t }
      if n ≠ 0 then
        match scheduleMember c r (s.setTokens r 1) with
        | none => none
        | some (.success, s) => some s
        | some (status, s) =>
          match put p 1 s.shaper with
          | none => none
          | some t =>
            let s := { s with shaper := t }.setTokens r 0
            if status = .unavailable ∧ ¬ c.enqueueOnUnavailable then serviceUnavailable r 503 s
            else enqueue c r clock s
      else if 0 < bucket.ceil ∨ c.enqueueOnUnavailable then enqueue c r clock s
      else serviceUnavailable r 503 s

/-! ### Health -/

def onHealthChanged (c : Settings) (m : ℕ) (old : HealthState) (s : Cluster) : Option Cluster :=
  match s.member? m with
  | none => none
  | some x =>
    if ¬ x.enabled then some s
    else if x.state = .online then
      match s.resize (add s.shaper.label.rate x.capacity) with
      | none => none
      | some s =>
        if ¬ c.stickyOfflineMode then dequeueTo m s
        else some (s.setMember m fun x ↦ { x with enabled := false })
    else if old = .online then s.resize (sub s.shaper.label.rate x.capacity)
    else some s

def setState (c : Settings) (m : ℕ) (value : HealthState) (s : Cluster) : Option Cluster :=
  match s.member? m with
  | none => none
  | some x =>
    if x.state = value then some s
    else onHealthChanged c m x.state (s.setMember m fun x ↦ { x with state := value })

def logSuccess (c : Settings) (m : ℕ) (s : Cluster) : Option Cluster :=
  match s.member? m with
  | none => none
  | some x =>
    let n := x.consecutiveSuccessCount + 1
    let s := s.setMember m fun x ↦ { x with consecutiveSuccessCount := n }
    if c.healthCheckSuccessThreshold ≤ n ∧ x.state ≠ .online then setState c m .online s
    else some s

def logFailure (c : Settings) (m : ℕ) (s : Cluster) : Option Cluster :=
  setState c m .offline (s.setMember m fun x ↦ { x with consecutiveSuccessCount := 0 })

/-! ### The callbacks of a member -/

/-- `HttpClusterMember::onFailure(cr, ec)`, up to the call of `onProcessingFailed`. -/
def onFailure (c : Settings) (r m : ℕ) (s : Cluster) : Option Cluster :=
  let s := s.setMember m fun x ↦ { x with load := x.load - 1 }
  (setState c m .offline s).map (setBackend r none)

def onProcessingFailed (c : Settings) (r : ℕ) (clock : Clock) (s : Cluster) : Option Cluster :=
  match s.requests[r]? with
  | none => none
  | some x =>
    if x.tokens = 0 then none
    else
      match put x.bucket 1 s.shaper with
      | none => none
      | some t => reschedule c r clock ({ s with shaper := t }.setTokens r 0)

def onResponseReceived (r m status : ℕ) (s : Cluster) : Option Cluster :=
  match s.member? m with
  | none => none
  | some _ => onMessageEnd r status (s.setMember m fun x ↦ { x with load := x.load - 1 })

def runTask (c : Settings) (clock : Clock) (s : Cluster) : Task → Option Cluster
  | .timedOut r => serviceUnavailable r 504 s
  | .dequeued r m =>
    match s.member? m with
    | none => none
    | some x =>
      match tryProcess x r (s.setTokens r 1) with
      | (.success, s) => (verifyTryCount c r s).map Prod.snd
      | (_, s) => reschedule c r clock (s.setTokens r 0)

/-! ### Runs -/

/-- What can happen to a cluster. -/
inductive Action where
  | addMember (name : String) (capacity : ℕ) (enabled : Bool)
  | removeMember (name : String)
  | setEnabled (m : ℕ) (value : Bool)
  | setCapacity (m n : ℕ)
  | createBucket (name : String) (rate ceil : ℚ)
  | logSuccess (m : ℕ)
  | logFailure (m : ℕ)
  | schedule (bucket : Address) (clock : Clock)
  | responded (r m status : ℕ)
  | failed (r m : ℕ) (clock : Clock)
  | runTask (i : ℕ) (clock : Clock)
  | updateQueueTimer (bucket : Address) (now : ℕ)

def addMember (name : String) (capacity : ℕ) (enabled : Bool) (s : Cluster) : Cluster :=
  { s with
    members := s.members ++ [{ id := s.fresh, name, capacity := capacity % 2 ^ 64, enabled }]
    fresh := s.fresh + 1 }

def removeMember (name : String) (s : Cluster) : Cluster :=
  { s with members := s.members.eraseP (·.name == name) }

def setEnabled (m : ℕ) (value : Bool) (s : Cluster) : Option Cluster :=
  (s.member? m).map fun _ ↦ s.setMember m fun x ↦ { x with enabled := value }

/-- `onCapacityChanged(member, old)`, for a member as it is now. -/
def onCapacityChanged (x : Member) (old : ℕ) (s : Cluster) : Option Cluster :=
  if x.enabled then s.resize (add (sub s.shaper.label.rate old) x.capacity) else some s

def setCapacity (m n : ℕ) (s : Cluster) : Option Cluster :=
  match s.member? m with
  | none => none
  | some x =>
    let x' := { x with capacity := n % 2 ^ 64 }
    onCapacityChanged x' x.capacity (s.setMember m fun _ ↦ x')

/-- `updateQueueTimer()` of a bucket. -/
def updateQueueTimer (p : Address) (now : ℕ) (s : Cluster) : Option Cluster :=
  (s.shaper.label? p).map fun bucket ↦
    { s with shaper := s.shaper.mapAt (TokenShaper.Node.updateQueueTimer now) p }.onTimeout
      (bucket.timedOut now)

/-- The effect of an action. A future is fulfilled once, and a closure runs once. -/
def step (c : Settings) (s : Cluster) : Action → Option Cluster
  | .addMember name capacity enabled => some (s.addMember name capacity enabled)
  | .removeMember name => some (s.removeMember name)
  | .setEnabled m value => s.setEnabled m value
  | .setCapacity m n => s.setCapacity m n
  | .createBucket name rate ceil =>
    some { s with shaper := (createChild [] name rate ceil s.shaper).2 }
  | .logSuccess m => s.logSuccess c m
  | .logFailure m => s.logFailure c m
  | .schedule bucket clock => s.schedule c bucket clock
  | .responded r m status =>
    if (r, m) ∈ s.processing then
      onResponseReceived r m status { s with processing := s.processing.erase (r, m) }
    else none
  | .failed r m clock =>
    if (r, m) ∈ s.processing then
      let s := { s with processing := s.processing.erase (r, m) }.observe (.failed r m)
      (onFailure c r m s).bind (onProcessingFailed c r clock)
    else none
  | .runTask i clock =>
    match s.posted[i]? with
    | none => none
    | some task => runTask c clock { s with posted := s.posted.eraseIdx i } task
  | .updateQueueTimer bucket now => s.updateQueueTimer bucket now

end Cluster

/-- A new cluster and what can happen to it. -/
def clusters (c : Settings) : TransitionSystem Cluster Cluster.Action where
  init := { shaper := createRoot 0 }
  step := Cluster.step c

end Xzero.Http.Client
