import Mathlib.Data.Rat.Floor
import Xzero.Library.Rose

/-!
# The token shaper

A shaper hands out tokens from a tree of nodes. Each node is assured a part of its parent's
tokens (`rate`) and may borrow from its parent up to a bound (`ceil`); both are configured in
percent of the parent's, and the node keeps count of the tokens taken through it
(`actualRate`). Requests that get no token wait in the queue of their node, and `dequeue`
serves the nodes of a subtree in turn.

A node is named by its address, the positions of its ancestors and of itself among their
siblings; the source's `parent_` is the address without its last position. A call at an
address that no node has is not a call, and leaves the tree as it is. `size_t` is a natural
number, with sums taken modulo `2 ^ 64`; percentages are exact. Two things stop a program
that uses a shaper, and are `none` here: an assertion that fails in `put`, and a position in
the list of children that does not exist in `dequeue`.
-/

namespace Xzero.TokenShaper

/-- The result of a call that changes the configuration. -/
inductive TokenShaperError where
  | success
  | rateLimitOverflow
  | ceilLimitOverflow
  | nameConflict
  | invalidChildNode
deriving DecidableEq, Repr

/-- A waiting request, with the time it was enqueued at, in microseconds. -/
structure QueueItem (T : Type) where
  token : T
  ctime : ℕ
deriving DecidableEq, Repr

/-- What a node holds, its place in the tree apart. -/
structure Node (T : Type) where
  name : String
  rate : ℕ
  ceil : ℕ
  ratePercent : ℚ
  ceilPercent : ℚ
  actualRate : ℕ := 0
  queue : List (QueueItem T) := []
  dequeueOffset : ℕ := 0
deriving DecidableEq, Repr

/-- A node with everything below it. -/
abbrev Tree (T : Type) := Rose (Node T)

/-- The way to a node from the root. -/
abbrev Address := List ℕ

variable {T : Type}

/-! ### Sums over the children -/

/-- The sum of two `size_t`. -/
def add (a b : ℕ) : ℕ := (a + b) % 2 ^ 64

/-- `overRate()`: how far a node is above its rate, a difference of two `size_t` that is
read as a signed number. -/
def Node.overRate (x : Node T) : ℕ :=
  let d := (x.actualRate + (2 ^ 64 - x.rate % 2 ^ 64)) % 2 ^ 64
  if d < 2 ^ 63 then d else 0

/-- The sum of a figure over some nodes. -/
def sumOver (f : Node T → ℕ) (cs : List (Tree T)) : ℕ :=
  cs.foldl (fun sum c ↦ add sum (f c.label)) 0

def childRateP (v : Tree T) : ℚ := (v.children.map (fun c ↦ c.label.ratePercent)).sum

/-- `childRate()`: the tokens reserved for the children. -/
def childRate (v : Tree T) : ℕ := sumOver Node.rate v.children

def actualChildRate (v : Tree T) : ℕ := sumOver Node.actualRate v.children

def actualChildOverRate (v : Tree T) : ℕ := sumOver Node.overRate v.children

/-! ### Taking tokens and putting them back -/

/-- `actualRate_ += n` -/
def Node.increment (n : ℕ) (x : Node T) : Node T := { x with actualRate := add x.actualRate n }

/-- `actualRate_ -= n` -/
def Node.decrement (n : ℕ) (x : Node T) : Node T := { x with actualRate := x.actualRate - n }

/-- Does the node have `n` tokens in its assured pool? -/
def Assured (n : ℕ) (v : Tree T) : Prop :=
  add (max v.label.actualRate (add (childRate v) (actualChildOverRate v))) n ≤ v.label.rate

instance (n : ℕ) (v : Tree T) : Decidable (Assured n v) := inferInstanceAs (Decidable (_ ≤ _))

/-- Do `n` more tokens leave the node within its ceiling? -/
def BelowCeil (n : ℕ) (v : Tree T) : Prop := add v.label.actualRate n ≤ v.label.ceil

instance (n : ℕ) (v : Tree T) : Decidable (BelowCeil n v) := inferInstanceAs (Decidable (_ ≤ _))

/-- The loop over a node and its ancestors that adds `n` to their counts. The way up is the
address from its end. -/
def incrementUp (n : ℕ) : List ℕ → Tree T → Tree T
  | [], t => t.mapAt (.increment n) []
  | i :: up, t => incrementUp n up (t.mapAt (.increment n) (i :: up).reverse)

/-- `get` of the node at the end of a way up: from the assured pool, or else borrowed from
the parent. -/
def getUp (n : ℕ) (way : List ℕ) (t : Tree T) : ℕ × Tree T :=
  match t.at? way.reverse with
  | none => (0, t)
  | some v =>
    if Assured n v then (n, incrementUp n way t)
    else if BelowCeil n v then
      match way with
      | [] => (0, t)
      | _ :: up =>
        let (m, t') := getUp n up t
        if m = 0 then (0, t') else (n, t'.mapAt (.increment n) way.reverse)
    else (0, t)

/-- `get(n)`: the number of tokens taken, `n` or nothing. -/
def get (p : Address) (n : ℕ) (t : Tree T) : ℕ × Tree T := getUp n p.reverse t

/-- The assertions of `put` at one node. -/
def Refundable (n : ℕ) (v : Tree T) : Prop :=
  n ≤ v.label.actualRate ∧ actualChildRate v ≤ v.label.actualRate - n

instance (n : ℕ) (v : Tree T) : Decidable (Refundable n v) := inferInstanceAs (Decidable (_ ∧ _))

/-- `put` at a node, and then at its ancestors. -/
def putUp (n : ℕ) (way : List ℕ) (t : Tree T) : Option (Tree T) :=
  match t.at? way.reverse with
  | none => some t
  | some v =>
    if Refundable n v then
      let t' := t.mapAt (.decrement n) way.reverse
      match way with
      | [] => some t'
      | _ :: up => putUp n up t'
    else none

def put (p : Address) (n : ℕ) (t : Tree T) : Option (Tree T) := putUp n p.reverse t

/-! ### Configuration -/

/-- A part of `n` tokens. -/
def portion (n : ℕ) (percent : ℚ) : ℕ := ⌊(n : ℚ) * percent⌋₊

def createRoot (tokens : ℕ) : Tree T :=
  .node
    { name := "root", rate := tokens, ceil := tokens, ratePercent := 1, ceilPercent := 1 } []

mutual

/-- `findChild(name)`: a node of that name below this one, the direct children first. -/
def findChild (name : String) : Tree T → Option (Tree T)
  | .node _ cs =>
    match cs.find? (fun c ↦ c.label.name == name) with
    | some c => some c
    | none => findChildBelow name cs

/-- The first of some nodes to find the name below itself. -/
def findChildBelow (name : String) : List (Tree T) → Option (Tree T)
  | [] => none
  | c :: cs =>
    match findChild name c with
    | some v => some v
    | none => findChildBelow name cs

end

/-- The part of `update()` that concerns the node itself. -/
def Node.update (parent x : Node T) : Node T :=
  { x with
    rate := portion parent.rate x.ratePercent
    ceil := portion parent.ceil x.ceilPercent }

/-- A node with new figures, its descendants updated. -/
def refresh (x : Node T) (cs : List (Tree T)) : Tree T := .node x (Rose.descendAll .update x cs)

def Node.child (parent : Node T) (name : String) (rate ceil : ℚ) : Node T where
  name := name
  rate := portion parent.rate rate
  ceil := portion parent.ceil ceil
  ratePercent := rate
  ceilPercent := ceil

def createChild (p : Address) (name : String) (rate ceil : ℚ) (t : Tree T) :
    TokenShaperError × Tree T :=
  match t.at? p with
  | none => (.invalidChildNode, t)
  | some v =>
    if rate < 0 ∨ 1 < rate + childRateP v then (.rateLimitOverflow, t)
    else if ceil < rate ∨ 1 < ceil then (.ceilLimitOverflow, t)
    else if (findChild name t).isSome then (.nameConflict, t)
    else (.success, t.graft p (.node (v.label.child name rate ceil) []))

/-- `destroyChild(n)`, for the child at a position. -/
def destroyChild (p : Address) (i : ℕ) (t : Tree T) : Tree T := t.prune p i

def setName (p : Address) (value : String) (t : Tree T) : TokenShaperError × Tree T :=
  if (findChild value t).isSome then (.nameConflict, t)
  else (.success, t.mapAt (fun x ↦ { x with name := value }) p)

/-- A change to the figures of a node that has a parent: what it says of the parent, of the
node and of the node's new figures, and the update of everything below. -/
def configure (p : Address) (change : Node T → Node T → Except TokenShaperError (Node T))
    (t : Tree T) : TokenShaperError × Tree T :=
  match p, t.label? p.dropLast, t.label? p with
  | _ :: _, some parent, some x =>
    match change parent x with
    | .error e => (e, t)
    | .ok x' => (.success, t.modifyAt (fun v ↦ refresh x' v.children) p)
  | _, _, _ => (.invalidChildNode, t)

/-- The check and the assignments of `setRate(newRate)`. -/
def Node.withRate (newRate : ℚ) (parent x : Node T) : Except TokenShaperError (Node T) :=
  if newRate < 0 ∨ x.ceilPercent < newRate then .error .rateLimitOverflow
  else .ok { x with ratePercent := newRate, rate := portion parent.rate newRate }

/-- The check and the assignments of `setCeil(newCeil)`. -/
def Node.withCeil (newCeil : ℚ) (parent x : Node T) : Except TokenShaperError (Node T) :=
  if newCeil < x.ratePercent ∨ 1 < newCeil then .error .ceilLimitOverflow
  else .ok { x with ceilPercent := newCeil, ceil := portion parent.ceil newCeil }

/-- The checks and the assignments of `setRate(newRate, newCeil)`. -/
def Node.withRates (newRate newCeil : ℚ) (parent x : Node T) :
    Except TokenShaperError (Node T) :=
  if newRate < 0 ∨ newCeil < newRate then .error .rateLimitOverflow
  else if 1 < newCeil then .error .ceilLimitOverflow
  else .ok (.update parent { x with ratePercent := newRate, ceilPercent := newCeil })

def setRate (p : Address) (newRate : ℚ) : Tree T → TokenShaperError × Tree T :=
  configure p (Node.withRate newRate)

def setCeil (p : Address) (newCeil : ℚ) : Tree T → TokenShaperError × Tree T :=
  configure p (Node.withCeil newCeil)

/-- `setRate(newRate, newCeil)` -/
def setRates (p : Address) (newRate newCeil : ℚ) : Tree T → TokenShaperError × Tree T :=
  configure p (Node.withRates newRate newCeil)

def resize (capacity : ℕ) (t : Tree T) : Tree T :=
  if t.label.rate = capacity then t
  else
    refresh
      { t.label with
        rate := portion capacity t.label.ratePercent
        ceil := portion capacity t.label.ceilPercent } t.children

/-! ### Queues -/

/-- `queueTimeout_`, in microseconds. -/
def queueTimeout : ℕ := 50000000

/-- Has a waiting request timed out? -/
def QueueItem.late (now : ℕ) (item : QueueItem T) : Bool := queueTimeout ≤ now - item.ctime

/-- `updateQueueTimer()` takes the requests that timed out from the front of the queue. -/
def Node.updateQueueTimer (now : ℕ) (x : Node T) : Node T :=
  { x with queue := x.queue.dropWhile (QueueItem.late now) }

/-- The requests that `updateQueueTimer()` hands to the timeout handler. -/
def Node.timedOut (now : ℕ) (x : Node T) : List T :=
  (x.queue.takeWhile (QueueItem.late now)).map QueueItem.token

/-- A request at the end of the queue. -/
def Node.push (value : T) (ctime : ℕ) (x : Node T) : Node T :=
  { x with queue := x.queue ++ [⟨value, ctime⟩] }

/-- `enqueue(value)`: the clock is read when the request is stored and again when the queue
is looked through. -/
def enqueue (p : Address) (value : T) (ctime now : ℕ) (t : Tree T) : Tree T :=
  t.mapAt (fun x ↦ (x.push value ctime).updateQueueTimer now) p

/-- The requests that `enqueue(value)` hands to the timeout handler. -/
def enqueueTimedOut (p : Address) (value : T) (ctime now : ℕ) (t : Tree T) : List T :=
  ((t.label? p).map fun x ↦ (x.push value ctime).timedOut now).getD []

/-- The next child to look at, in turn. -/
def nextOffset (childCount offset : ℕ) : ℕ := if offset = 0 then childCount - 1 else offset - 1

/-- `dequeueOffset_ = offset` -/
def Node.setDequeueOffset (offset : ℕ) (x : Node T) : Node T := { x with dequeueOffset := offset }

def Node.popFront (x : Node T) : Node T := { x with queue := x.queue.tail }

/-- What a search for a request comes to: nothing, or a request with the node it waited at. -/
abbrev Found (T : Type) := Option (Address × T)

/-- The loop of `dequeue` over the children of a node, with the number of rounds to go. -/
def dequeueChildren (visit : Address → Tree T → Option (Found T × Tree T)) (p : Address)
    (childCount : ℕ) : ℕ → Tree T → Option (Found T × Tree T)
  | 0, t => some (none, t)
  | k + 1, t =>
    match t.at? p with
    | none => none
    | some v =>
      let offset := nextOffset childCount v.label.dequeueOffset
      if offset < v.children.length then
        match visit (p ++ [offset]) (t.mapAt (.setDequeueOffset offset) p) with
        | some (none, t') => dequeueChildren visit p childCount k t'
        | found => found
      else none

/-- The last part of `dequeue`: the node's own queue. -/
def dequeueOwn (p : Address) (t : Tree T) : Found T × Tree T :=
  match (t.label? p).map Node.queue with
  | some (item :: _) =>
    let (m, t') := get p 1 t
    if m = 0 then (none, t') else (some (p, item.token), t'.mapAt Node.popFront p)
  | _ => (none, t)

/-- `dequeue()` of a node, for trees up to a height. -/
def dequeueWithin : ℕ → Address → Tree T → Option (Found T × Tree T)
  | 0, _, _ => none
  | k + 1, p, t =>
    match t.at? p with
    | none => some (none, t)
    | some v =>
      let childCount := v.children.length
      match dequeueChildren (dequeueWithin k) p childCount childCount t with
      | some (none, t') => some (dequeueOwn p t')
      | found => found

def dequeue (p : Address) (t : Tree T) : Option (Found T × Tree T) := dequeueWithin t.height p t

/-! ### Calls -/

/-- The calls on a shaper, each at the node it is made on. -/
inductive Call (T : Type) where
  | createChild (p : Address) (name : String) (rate ceil : ℚ)
  | destroyChild (p : Address) (i : ℕ)
  | setName (p : Address) (value : String)
  | setRate (p : Address) (newRate : ℚ)
  | setCeil (p : Address) (newCeil : ℚ)
  | setRates (p : Address) (newRate newCeil : ℚ)
  | resize (capacity : ℕ)
  | get (p : Address) (n : ℕ)
  | put (p : Address) (n : ℕ)
  | enqueue (p : Address) (value : T) (ctime now : ℕ)
  | dequeue (p : Address)

/-- What a call gives back, to its caller or to the timeout handler. -/
inductive Reply (T : Type) where
  | done
  | result (e : TokenShaperError)
  | tokens (n : ℕ)
  | timedOut (values : List T)
  | found (f : Found T)

def step (t : Tree T) : Call T → Option (Reply T × Tree T)
  | .createChild p name rate ceil =>
    some ((createChild p name rate ceil t).map Reply.result id)
  | .destroyChild p i => some (.done, destroyChild p i t)
  | .setName p value => some ((setName p value t).map Reply.result id)
  | .setRate p newRate => some ((setRate p newRate t).map Reply.result id)
  | .setCeil p newCeil => some ((setCeil p newCeil t).map Reply.result id)
  | .setRates p newRate newCeil => some ((setRates p newRate newCeil t).map Reply.result id)
  | .resize capacity => some (.done, resize capacity t)
  | .get p n => some ((get p n t).map Reply.tokens id)
  | .put p n => (put p n t).map fun t' ↦ (.done, t')
  | .enqueue p value ctime now =>
    some (.timedOut (enqueueTimedOut p value ctime now t), enqueue p value ctime now t)
  | .dequeue p => (dequeue p t).map (Prod.map Reply.found id)

end Xzero.TokenShaper
