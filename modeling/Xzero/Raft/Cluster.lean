import Xzero.Library.Transition
import Xzero.Raft.ServerSpec

/-!
# The cluster

Servers and the packets between them. A packet that is in flight may be delivered at any time, in
any order and at most once, or never: delivery takes it out of `network`, and nothing forces a
delivery. Only packets a server has sent are ever in flight, so every message is genuine.

A step is an input to one member (`Action`). `system` is the transition system the runs are taken
in; its guards are predicates on the acting server and its input (`onActor`), which is what a
condition on "every step of the run" speaks about.
-/

namespace Xzero.Raft

open Function Server

variable {σ : Type}

/-- The servers and the packets in flight. -/
structure Cluster (σ : Type) where
  servers : ℕ → Server σ
  network : List Packet

/-- An input to a member. -/
structure Action where
  actor : ℕ
  input : Input
  deriving DecidableEq, Repr

namespace Action

/-- The packet a delivery takes from the network. -/
def packet (a : Action) : Option Packet :=
  match a.input with
  | .receive src msg => some ⟨src, a.actor, msg⟩
  | _ => none

/-- The network without the packet that is delivered. -/
def consume (a : Action) (network : List Packet) : List Packet :=
  match a.packet with
  | some p => network.erase p
  | none => network

theorem consume_sublist (a : Action) (network : List Packet) :
    (a.consume network).Sublist network := by
  unfold consume
  split
  · exact List.erase_sublist
  · exact List.Sublist.refl network

theorem mem_of_mem_consume {a : Action} {network : List Packet} {p : Packet}
    (h : p ∈ a.consume network) : p ∈ network :=
  (a.consume_sublist network).subset h

end Action

namespace Cluster

/-- Every server has been constructed and started. -/
def start (cfg : Config σ) : Cluster σ where
  servers i := (new cfg i).start
  network := []

/-- The cluster once the acting member has moved on to a state and sent its packets. -/
def after (c : Cluster σ) (a : Action) (s' : Server σ) (out : List Packet) : Cluster σ where
  servers := update c.servers a.actor s'
  network := a.consume c.network ++ out

/-- A member takes an input; a delivered message must be in flight. -/
def step (cfg : Config σ) (c : Cluster σ) (a : Action) : Option (Cluster σ) :=
  if a.actor ∈ cfg.members ∧ ∀ p ∈ a.packet, p ∈ c.network then
    ((c.servers a.actor).handle cfg a.input).map fun r ↦ c.after a r.1 r.2
  else none

/-- An action that can be taken, with its outcome. -/
structure Takes (cfg : Config σ) (c : Cluster σ) (a : Action) (s' : Server σ)
    (out : List Packet) : Prop where
  mem : a.actor ∈ cfg.members
  /-- Only packets in flight are delivered. -/
  deliver : ∀ p ∈ a.packet, p ∈ c.network
  handle : (c.servers a.actor).handle cfg a.input = some (s', out)

section

variable {cfg : Config σ} {c c' : Cluster σ} {a : Action} {s' : Server σ} {out : List Packet}

theorem Takes.effect (h : c.Takes cfg a s' out) : (c.servers a.actor).Effect cfg a.input s' out :=
  handle_effect h.handle

theorem step_eq_some_iff :
    c.step cfg a = some c' ↔ ∃ s' out, c.Takes cfg a s' out ∧ c' = c.after a s' out := by
  unfold step
  split
  · next h =>
    rw [Option.map_eq_some_iff]
    constructor
    · rintro ⟨⟨s', out⟩, hh, rfl⟩
      exact ⟨s', out, ⟨h.1, h.2, hh⟩, rfl⟩
    · rintro ⟨s', out, ht, rfl⟩
      exact ⟨(s', out), ht.handle, rfl⟩
  · next h =>
    refine iff_of_false (by simp) ?_
    rintro ⟨s', out, ht, -⟩
    exact h ⟨ht.mem, ht.deliver⟩

@[simp] theorem after_servers_self : (c.after a s' out).servers a.actor = s' :=
  update_self ..

theorem after_servers_of_ne {j : ℕ} (h : j ≠ a.actor) :
    (c.after a s' out).servers j = c.servers j :=
  update_of_ne h ..

@[simp] theorem after_network : (c.after a s' out).network = a.consume c.network ++ out := rfl

/-- What holds of the acting member's new state, and of the others' old ones, holds of every
server. -/
@[elab_as_elim]
theorem after_cases {P : ℕ → Server σ → Prop} (hself : P a.actor s')
    (hother : ∀ j, P j (c.servers j)) (j : ℕ) : P j ((c.after a s' out).servers j) := by
  rcases eq_or_ne j a.actor with rfl | hne
  · rwa [after_servers_self]
  · rw [after_servers_of_ne hne]
    exact hother j

/-- What relates the acting member's two states, and every state to itself, relates the states of
every server. -/
@[elab_as_elim]
theorem forall_after {R : Server σ → Server σ → Prop} (hrefl : ∀ s, R s s)
    (h : R (c.servers a.actor) s') (j : ℕ) :
    R (c.servers j) ((c.after a s' out).servers j) :=
  after_cases h (fun _ ↦ hrefl _) j

end

end Cluster

/-- The transition system of a cluster. -/
def system (cfg : Config σ) : TransitionSystem (Cluster σ) Action where
  init := .start cfg
  step := Cluster.step cfg

/-- A condition on the acting server and its input. -/
def onActor (ok : Server σ → Input → Prop) : Cluster σ → Action → Prop :=
  fun c a ↦ ok (c.servers a.actor) a.input

instance (ok : Server σ → Input → Prop) [∀ s inp, Decidable (ok s inp)] (c : Cluster σ)
    (a : Action) : Decidable (onActor ok c a) :=
  inferInstanceAs (Decidable (ok (c.servers a.actor) a.input))

def Server.anyStep : Server σ → Input → Prop := fun _ _ ↦ True

instance (s : Server σ) (inp : Input) : Decidable (s.anyStep inp) :=
  inferInstanceAs (Decidable True)

/-- The clusters reached by runs whose steps all meet the condition. -/
abbrev Reachable (cfg : Config σ) (ok : Server σ → Input → Prop) (c : Cluster σ) : Prop :=
  (system cfg).Reach (onActor ok) c

section

variable {cfg : Config σ} {ok : Server σ → Input → Prop} {c : Cluster σ} (h : Reachable cfg ok c)
include h

/-- **What the start has and every step keeps, every cluster that is reached has.** -/
theorem Reachable.invariant_after {P : Cluster σ → Prop} (hstart : P (.start cfg))
    (hstep : ∀ {c : Cluster σ} {act : Action} {s' : Server σ} {out : List Packet},
      Reachable cfg ok c → P c → c.Takes cfg act s' out → ok (c.servers act.actor) act.input →
      P (c.after act s' out)) : P c := by
  refine h.invariant hstart ?_
  intro c c' act hr hP hok hst
  obtain ⟨s', out, ht, rfl⟩ := Cluster.step_eq_some_iff.1 hst
  exact hstep hr hP ht hok

/-- **What every server keeps by itself, the cluster keeps.** -/
theorem Reachable.forall_server {P : ℕ → Server σ → Prop} (hstart : ∀ i, P i (new cfg i).start)
    (hstep : ∀ {i : ℕ} {s s' : Server σ} {inp : Input} {out : List Packet}, P i s → ok s inp →
      s.handle cfg inp = some (s', out) → P i s') (i : ℕ) : P i (c.servers i) := by
  refine h.invariant_after (P := fun c ↦ ∀ i, P i (c.servers i)) hstart ?_ i
  intro c a s' out _ hP ht hok j
  exact Cluster.after_cases (hstep (hP _) hok ht.handle) hP j

end

end Xzero.Raft
