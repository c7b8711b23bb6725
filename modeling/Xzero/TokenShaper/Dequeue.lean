import Xzero.TokenShaper.Configuration
import Xzero.TokenShaper.Conservation

/-!
# Serving the queues of a shaper

`dequeue` looks at the children of a node in turn, beginning next to the one it looked at
last, and then at the node's own queue. The position is kept from call to call, while
children come and go. As long as it does not lie beyond the children there are, one call
looks at each child once (**`TokenShaper.turns_perm`**), and it gives up only if no node below
has a request that can have a token (**`TokenShaper.dequeueWithin_spec`**).

`destroyChild` does not adjust the position. If children are taken out so that it lies beyond
those that are left, the next `dequeue` reads past the end of the list
(**`TokenShaper.not_served`**). In runs that take out children only where this does not happen,
and only with empty queues, every `dequeue` is safe, and every queue is a queue: what entered
it is what left it followed by what is in it (**`TokenShaper.served_of_reach`**).
-/

namespace Xzero.TokenShaper

open List Option Function Rose Node QueueItem

variable {T : Type}

/-! ### Turns -/

/-- The positions that are looked at in a number of rounds. -/
def turns (childCount : ℕ) : ℕ → ℕ → List ℕ
  | _, 0 => []
  | offset, k + 1 =>
    nextOffset childCount offset :: turns childCount (nextOffset childCount offset) k

variable {m o : ℕ}

theorem nextOffset_lt (hm : 0 < m) (ho : o ≤ m) : nextOffset m o < m := by
  rw [nextOffset]
  split <;> omega

theorem turns_add (m o j k : ℕ) :
    turns m o (j + k) = turns m o j ++ turns m ((nextOffset m)^[j] o) k := by
  induction j generalizing o with
  | zero => rw [zero_add]; rfl
  | succ j ih => rw [add_right_comm, turns, ih, turns, cons_append, iterate_succ_apply]

theorem iterate_nextOffset (m o j : ℕ) : (nextOffset m)^[j] (o + j) = o := by
  induction j with
  | zero => rfl
  | succ j ih =>
    exact ih

theorem turns_self (m o : ℕ) : turns m o o = (range o).reverse := by
  induction o with
  | zero => rfl
  | succ o ih =>
    have hnext : nextOffset m (o + 1) = o := rfl
    rw [turns, hnext, ih, range_succ, reverse_append]
    rfl

/-- The turn after the first child is the last child's, as it is from behind the last. -/
theorem turns_zero (m k : ℕ) : turns m 0 k = turns m m k := by
  have hnext : nextOffset m m = nextOffset m 0 := by
    rw [nextOffset, nextOffset]
    split <;> simp_all
  cases k with
  | zero => rfl
  | succ k => rw [turns, turns, hnext]

theorem turns_perm (ho : o ≤ m) : (turns m o m).Perm (range m) := by
  have hback : (nextOffset m)^[o] o = 0 := by simpa using iterate_nextOffset m 0 o
  have hdown : (nextOffset m)^[m - o] m = o := by
    simpa [Nat.add_sub_of_le ho] using iterate_nextOffset m o (m - o)
  have hround : turns m o m = turns m o o ++ turns m m (m - o) := by
    rw [← turns_zero, ← hback, ← turns_add, Nat.add_sub_of_le ho]
  have hall : turns m m m = turns m m (m - o) ++ turns m o o := by
    have hadd := turns_add m m (m - o) o
    rwa [Nat.sub_add_cancel ho, hdown] at hadd
  have hperm : (turns m o m).Perm (turns m m m) := by
    rw [hround, hall]
    exact perm_append_comm
  rw [turns_self] at hperm
  exact hperm.trans (reverse_perm _)

/-! ### What a search does not change -/

/-- A node, but for whose turn it is among its children. -/
def Node.forget (x : Node T) : Node T := { x with dequeueOffset := 0 }

/-- Two trees that differ in whose turn it is only. -/
def SameQueues (t t' : Tree T) : Prop := t.map forget = t'.map forget

/-- Nowhere is it the turn of a child behind the last. -/
def InTurn (t : Tree T) : Prop :=
  t.Forall fun v ↦ v.label.dequeueOffset ≤ v.children.length

theorem sumOver_map {f : Node T → ℕ} (hf : ∀ x : Node T, f x.forget = f x) (cs : List (Tree T)) :
    sumOver f (cs.map (map .forget)) = sumOver f cs := by
  rw [sumOver_eq, sumOver_eq, List.map_map]
  congr 2
  refine map_congr_left fun c _ ↦ ?_
  rw [comp_apply, label_map, hf]

variable {n : ℕ} {above : Prop}

theorem lends_map (v : Tree T) : Lends n above (v.map .forget) ↔ Lends n above v := by
  have hrate : childRate (v.map .forget) = childRate v := by
    rw [childRate, children_map, sumOver_map fun _ ↦ rfl, childRate]
  have hover : actualChildOverRate (v.map .forget) = actualChildOverRate v := by
    rw [actualChildOverRate, children_map, sumOver_map fun _ ↦ rfl, actualChildOverRate]
  rw [Lends, Assured, BelowCeil, hrate, hover, label_map]
  rfl

variable {p : Address} {t : Tree T}

theorem grants_map : Grants n above p (t.map .forget) ↔ Grants n above p t := by
  induction p generalizing above t with
  | nil => exact lends_map t
  | cons i p ih =>
    simp only [Grants, children_map, getElem?_map, map_eq_some_iff]
    constructor
    · rintro ⟨_, ⟨c, hc, rfl⟩, hg⟩
      exact ⟨c, hc, by rwa [ih, propext (lends_map t)] at hg⟩
    · rintro ⟨c, hc, hg⟩
      exact ⟨_, ⟨c, hc, rfl⟩, by rwa [ih, propext (lends_map t)]⟩

namespace SameQueues

variable {t t' t'' : Tree T}

section

variable (h : SameQueues t t')
include h

theorem trans (h' : SameQueues t' t'') : SameQueues t t'' := Eq.trans h h'

theorem symm : SameQueues t' t := Eq.symm h

variable {p : Address}

theorem grants {n : ℕ} : Grants n False p t ↔ Grants n False p t' := by
  rw [← grants_map, h, grants_map]

theorem map_eq {β : Type} {f : Node T → β} (hf : f ∘ forget = f) : t.map f = t'.map f := by
  rw [← hf, ← Rose.map_map, h, Rose.map_map]

theorem exists_label? {x : Node T} (hx : t.label? p = some x) :
    ∃ x', t'.label? p = some x' ∧ x'.queue = x.queue := by
  have hlabel := label?_map queue p t'
  rw [← h.map_eq rfl, label?_map, hx] at hlabel
  exact map_eq_some_iff.mp hlabel.symm

theorem exists_at? {v : Tree T} (hv : t.at? p = some v) :
    ∃ v', t'.at? p = some v' ∧ v.children.length = v'.children.length ∧ v.height = v'.height := by
  have hat := at?_map forget p t'
  rw [← h, at?_map, hv, map_some] at hat
  obtain ⟨v', hv', hmap⟩ := map_eq_some_iff.mp hat.symm
  refine ⟨v', hv', ?_, ?_⟩
  · have := congrArg (fun u ↦ u.children.length) hmap
    simpa using this.symm
  · rw [← height_map forget, ← hmap, height_map]

end

theorem setDequeueOffset (o : ℕ) (p : Address) (t : Tree T) :
    SameQueues (t.mapAt (.setDequeueOffset o) p) t :=
  map_mapAt (f := Node.forget) (g := Node.setDequeueOffset o) (fun _ ↦ rfl) p t

end SameQueues

variable {v : Tree T}

theorem InTurn.setDequeueOffset (h : InTurn t)
    (hv : t.at? p = some v) (ho : o ≤ v.children.length) :
    InTurn (t.mapAt (.setDequeueOffset o) p) := by
  intro q s' hs'
  obtain ⟨s, hs, hlen, -⟩ := (SameQueues.setDequeueOffset o p t).exists_at? hs'
  have hlabel := label?_mapAt (.setDequeueOffset o) p q t
  rw [label?_of_at? hs', label?_of_at? hs, map_some, some.injEq] at hlabel
  rw [hlabel, hlen]
  split
  · rename_i hq
    rw [hq, hv, some.injEq] at hs
    exact hs ▸ ho
  · exact h q s hs

variable {t' : Tree T}

theorem InTurn.congr
    (h : t.map dequeueOffset = t'.map dequeueOffset) (ht : InTurn t) : InTurn t' := by
  refine forall_congr_map (fun s s' hs hle ↦ ?_) h ht
  have hlabel := congrArg label hs
  have hlen := congrArg (fun u ↦ u.children.length) hs
  simp only [label_map, children_map, length_map] at hlabel hlen
  omega

theorem InTurn.modifyAt (h : InTurn t) (hv : t.at? p = some v)
    {f : Tree T → Tree T} (hk : (f v).label.dequeueOffset = v.label.dequeueOffset)
    (hf : InTurn (f v)) : InTurn (t.modifyAt f p) := by
  refine (forall_modifyAt (fun s s' hs hcs hle ↦ ?_) hv hk hf h).2
  have hlen := congrArg length hcs
  rw [length_map, length_map] at hlen
  omega

theorem InTurn.graft (h : InTurn t) (hv : t.at? p = some v)
    (x : Node T) (hx : x.dequeueOffset = 0) : InTurn (t.graft p (.node x [])) := by
  obtain ⟨hown, hcs⟩ := forall_node.mp fun q u hu ↦
    h (p ++ q) u (by rw [at?_append, hv]; exact hu)
  refine h.modifyAt hv rfl (forall_node.mpr ⟨?_, fun c hc ↦ ?_⟩)
  · simpa using hown.trans (Nat.le_succ _)
  · rcases mem_append.mp hc with hc | hc
    · exact hcs c hc
    · rw [mem_singleton.mp hc]
      exact forall_node.mpr ⟨hx.le, fun c hc ↦ by cases hc⟩

section Frame

variable {β : Type} {f : Node T → β} (hincrement : ∀ x : Node T, f (x.increment 1) = f x)
  (hoffset : ∀ (o : ℕ) (x : Node T), f (x.setDequeueOffset o) = f x)
  (hpop : ∀ x : Node T, f x.popFront = f x)

include hincrement hpop in
theorem map_dequeueOwn (p : Address) (t : Tree T) : (dequeueOwn p t).2.map f = t.map f := by
  rw [dequeueOwn]
  split
  · dsimp only
    split
    · exact map_get hincrement p t
    · exact (map_mapAt hpop p _).trans (map_get hincrement p t)
  · rfl

variable {p : Address} {t t' : Tree T} {found : Found T}

include hoffset in
theorem map_dequeueChildren {visit : Address → Tree T → Option (Found T × Tree T)}
    (hvisit : ∀ {q : Address} {t t' : Tree T} {found : Found T},
      visit q t = some (found, t') → t'.map f = t.map f)
    {m k : ℕ}
    (h : dequeueChildren visit p m k t = some (found, t')) : t'.map f = t.map f := by
  induction k generalizing t with
  | zero =>
    cases h
    rfl
  | succ k ih =>
    rw [dequeueChildren] at h
    split at h
    · cases h
    · dsimp only at h
      split at h
      · have hset (o : ℕ) : (t.mapAt (.setDequeueOffset o) p).map f = t.map f :=
          map_mapAt (hoffset o) p t
        split at h
        · next t₁ hfound => exact (ih h).trans ((hvisit hfound).trans (hset _))
        · exact (hvisit h).trans (hset _)
      · cases h

include hincrement hoffset hpop in
theorem map_dequeue (h : dequeue p t = some (found, t')) : t'.map f = t.map f := by
  suffices hwithin : ∀ (k : ℕ) (p : Address) (t t' : Tree T) (found : Found T),
      dequeueWithin k p t = some (found, t') → t'.map f = t.map f from hwithin _ p t t' found h
  intro k
  induction k with
  | zero =>
    intro p t t' found h
    cases h
  | succ k ih =>
    intro p t t' found h
    rw [dequeueWithin] at h
    split at h
    · cases h
      rfl
    · dsimp only at h
      split at h
      · next t₁ hchildren =>
        have hown : (dequeueOwn p t₁).2 = t' := congrArg Prod.snd (some.inj h)
        rw [← hown, map_dequeueOwn hincrement hpop p t₁]
        exact map_dequeueChildren hoffset (fun h ↦ ih _ _ _ _ h) hchildren
      · exact map_dequeueChildren hoffset (fun h ↦ ih _ _ _ _ h) h

end Frame

/-! ### One search -/

/-- No request waits at a node, or there is no token for it. -/
def Idle (t : Tree T) (q : Address) : Prop :=
  ∀ x, t.label? q = some x → x.queue = [] ∨ ¬ Grants 1 False q t

variable {x : Node T}

theorem SameQueues.idle (h : SameQueues t t') {q : Address} (hq : Idle t q) : Idle t' q := by
  intro x' hx'
  obtain ⟨x, hx, hqueue⟩ := h.symm.exists_label? hx'
  rw [← hqueue, ← h.grants]
  exact hq x hx

/-- What a search of the nodes below an address comes to. -/
inductive Outcome (p : Address) (t : Tree T) : Found T → Tree T → Prop
  /-- All nodes below are idle, and nothing but their turns changed. -/
  | nothing {t' : Tree T} (hsame : SameQueues t' t) (hturn : InTurn t')
      (hframe : ∀ q, ¬ p <+: q → t'.label? q = t.label? q)
      (hidle : ∀ q, p <+: q → Idle t q) : Outcome p t none t'
  /-- A node below gets a token for the request at the front of its queue. -/
  | item {u : Tree T} {q : Address} {x : Node T} {item : QueueItem T} {rest : List (QueueItem T)}
      (hpq : p <+: q) (hx : t.label? q = some x) (hqueue : x.queue = item :: rest)
      (hgrants : Grants 1 False q t) (hsame : SameQueues u t) (hturn : InTurn u) :
      Outcome p t (some (q, item.token)) ((u.along (.increment 1) q).mapAt .popFront q)

variable {t₁ : Tree T}

theorem Outcome.mono {p' : Address} {found : Address × T} (hp : p <+: p')
    (ht : SameQueues t₁ t) (h : Outcome p' t₁ (some found) t') : Outcome p t (some found) t' := by
  cases h with
  | @item u q x₁ item rest hpq hx hqueue hgrants hsame hturn =>
    obtain ⟨x, hx, hxx⟩ := ht.exists_label? hx
    exact .item (hp.trans hpq) hx (hxx.trans hqueue) (ht.grants.mp hgrants) (hsame.trans ht) hturn

theorem dequeueOwn_spec (hsame : SameQueues t₁ t)
    (hturn : InTurn t₁) (hframe : ∀ q, ¬ p <+: q → t₁.label? q = t.label? q)
    (hidle : ∀ q, p <+: q → q ≠ p → Idle t q) :
    Outcome p t (dequeueOwn p t₁).1 (dequeueOwn p t₁).2 := by
  have hnothing (hown : Idle t p) : Outcome p t none t₁ := by
    refine .nothing hsame hturn hframe fun q hpq ↦ ?_
    rcases eq_or_ne q p with rfl | hne
    · exact hown
    · exact hidle q hpq hne
  rw [dequeueOwn]
  cases hx₁ : t₁.label? p with
  | none =>
    refine hnothing fun x hx ↦ ?_
    obtain ⟨x', hx', -⟩ := hsame.symm.exists_label? hx
    cases hx₁.symm.trans hx'
  | some x₁ =>
    obtain ⟨x, hx, hqueue⟩ := hsame.exists_label? hx₁
    rw [map_some]
    cases hq : x₁.queue with
    | nil =>
      refine hnothing fun y hy ↦ Or.inl ?_
      rw [hx] at hy
      cases hy
      exact hqueue.trans hq
    | cons item rest =>
      by_cases hg : Grants 1 False p t₁
      · rw [get_of_grants (by decide) hg]
        exact .item prefix_rfl hx (hqueue.trans hq) (hsame.grants.mp hg) hsame hturn
      · rw [get_of_not_grants hg]
        exact hnothing fun y hy ↦ Or.inr fun h ↦ hg (hsame.grants.mpr h)

/-- The children that a loop over them visits, without success. -/
inductive Rounds (visit : Address → Tree T → Option (Found T × Tree T)) (p : Address) :
    List ℕ → Tree T → Tree T → Prop
  | nil (t : Tree T) : Rounds visit p [] t t
  | cons {o : ℕ} {os : List ℕ} {t t' t'' : Tree T}
      (hvisit : visit (p ++ [o]) (t.mapAt (.setDequeueOffset o) p) = some (none, t'))
      (hrest : Rounds visit p os t' t'') : Rounds visit p (o :: os) t t''

section Loop

variable {visit : Address → Tree T → Option (Found T × Tree T)} {p : Address} {m : ℕ} {t : Tree T}

/-- The loop over the children, from any round on: it visits them in turn until one has a
request, or all visited are idle. -/
theorem dequeueChildren_spec (hvisit : ∀ o < m, ∀ t₁, SameQueues t₁ t → InTurn t₁ →
      ∃ found t₂, visit (p ++ [o]) t₁ = some (found, t₂) ∧ Outcome (p ++ [o]) t₁ found t₂)
    {j : ℕ} (hj : j ≤ m) {t₁ v : Tree T} (hsame : SameQueues t₁ t) (hturn : InTurn t₁)
    (hframe : ∀ q, ¬ p <+: q → t₁.label? q = t.label? q)
    (hv : t₁.at? p = some v) (hm : v.children.length = m) :
    (∃ t₂, dequeueChildren visit p m j t₁ = some (none, t₂) ∧ SameQueues t₂ t ∧ InTurn t₂ ∧
      (∀ q, ¬ p <+: q → t₂.label? q = t.label? q) ∧
      Rounds visit p (turns m v.label.dequeueOffset j) t₁ t₂ ∧
      ∀ o ∈ turns m v.label.dequeueOffset j, ∀ q, p ++ [o] <+: q → Idle t q) ∨
    ∃ found t₂, dequeueChildren visit p m j t₁ = some (some found, t₂) ∧
      Outcome p t (some found) t₂ := by
  induction j generalizing t₁ v with
  | zero => exact .inl ⟨t₁, rfl, hsame, hturn, hframe, .nil _, fun o ho ↦ by cases ho⟩
  | succ j ih =>
    set o := nextOffset m v.label.dequeueOffset with ho
    have hlt : o < m := nextOffset_lt (by omega) (hm ▸ hturn p v hv)
    set tset := t₁.mapAt (.setDequeueOffset o) p with htset
    have hset : SameQueues tset t := (SameQueues.setDequeueOffset o p t₁).trans hsame
    obtain ⟨found, t₂, hvis, hout⟩ :=
      hvisit o hlt tset hset (hturn.setDequeueOffset hv (by omega))
    have hnot : ¬ p ++ [o] <+: p := fun h ↦ by simpa using h.length_le
    rw [dequeueChildren, hv]
    dsimp only
    rw [if_pos (by rw [hm]; exact hlt), ← ho, ← htset, hvis, turns, ← ho]
    cases hout with
    | nothing hsame₂ hturn₂ hframe₂ hidle₂ =>
      have hlabel : t₂.label? p = some (v.label.setDequeueOffset o) := by
        rw [hframe₂ p hnot, htset, label?_mapAt, label?_of_at? hv]
        simp
      obtain ⟨v₂, hv₂, hlabel₂⟩ := at?_of_label? hlabel
      have hm₂ : v₂.children.length = m := by
        obtain ⟨v', hv', hlen, -⟩ :=
          ((hsame₂.trans (SameQueues.setDequeueOffset o p t₁))).exists_at? hv₂
        rw [hv, some.injEq] at hv'
        rw [hlen, ← hv', hm]
      have hframe' : ∀ q, ¬ p <+: q → t₂.label? q = t.label? q := by
        intro q hq
        have hne : q ≠ p := fun h ↦ hq (h ▸ prefix_rfl)
        rw [hframe₂ q fun h ↦ hq ((prefix_append _ _).trans h), htset, label?_mapAt, ← hframe q hq]
        simp [hne]
      have hoff : v₂.label.dequeueOffset = o := by rw [hlabel₂]; rfl
      have hrest := ih (by omega) (hsame₂.trans hset) hturn₂ hframe' hv₂ hm₂
      rw [hoff] at hrest
      refine hrest.imp ?_ id
      rintro ⟨t₃, hloop₃, hsame₃, hturn₃, hframe₃, hrounds, hidle₃⟩
      refine ⟨t₃, hloop₃, hsame₃, hturn₃, hframe₃, .cons hvis hrounds, fun o' ho' q hq ↦ ?_⟩
      rcases mem_cons.mp ho' with rfl | ho'
      · exact hset.idle (hidle₂ q hq)
      · exact hidle₃ o' ho' q hq
    | item hpq hx hqueue hgrants hsame₂ hturn₂ =>
      refine .inr ⟨_, _, rfl, ?_⟩
      exact (Outcome.item hpq hx hqueue hgrants hsame₂ hturn₂).mono (prefix_append _ _) hset

end Loop

/-- **What a search comes to**, for a node with everything below it of a height. -/
theorem dequeueWithin_spec {k : ℕ} (hv : t.at? p = some v) (hk : v.height ≤ k) (hturn : InTurn t) :
    ∃ found t', dequeueWithin k p t = some (found, t') ∧ Outcome p t found t' ∧
      (found = none → ∃ order t₁, order.Perm (range v.children.length) ∧
        Rounds (dequeueWithin (k - 1)) p order t t₁ ∧ dequeueOwn p t₁ = (none, t')) := by
  induction k generalizing p t v with
  | zero =>
    cases v
    exact absurd hk (by simp [height])
  | succ k ih =>
    have hvisit : ∀ o < v.children.length, ∀ t₁, SameQueues t₁ t → InTurn t₁ →
        ∃ found t₂, dequeueWithin k (p ++ [o]) t₁ = some (found, t₂) ∧
          Outcome (p ++ [o]) t₁ found t₂ := by
      intro o ho t₁ hsame hturn₁
      have hc : t.at? (p ++ [o]) = some v.children[o] := by
        rw [at?_append, hv, bind_some, at?_cons, getElem?_eq_getElem ho]
        rfl
      obtain ⟨c, hc₁, -, hheight⟩ := hsame.symm.exists_at? hc
      have hlt := height_lt (getElem_mem ho)
      obtain ⟨found, t₂, hw, hout, -⟩ := ih hc₁ (by omega) hturn₁
      exact ⟨found, t₂, hw, hout⟩
    have hloop := dequeueChildren_spec hvisit le_rfl (rfl : SameQueues t t) hturn
      (fun _ _ ↦ rfl) hv rfl
    have hoff := hturn p v hv
    obtain ⟨t₁, hnone, hsame, hturn₁, hframe, hrounds, hidle⟩ | ⟨found, t', hsome, hout⟩ := hloop
    · have hown : Outcome p t (dequeueOwn p t₁).1 (dequeueOwn p t₁).2 := by
        refine dequeueOwn_spec hsame hturn₁ hframe fun q hpq hne ↦ ?_
        obtain ⟨r, rfl⟩ := hpq
        obtain - | ⟨o, r⟩ := r
        · exact absurd (append_nil p) hne
        · rcases lt_or_ge o v.children.length with ho | ho
          · exact hidle o ((turns_perm hoff).mem_iff.mpr (mem_range.mpr ho)) _ ⟨r, by simp⟩
          · intro x hx
            simp [label?_append, hv, label?_cons, getElem?_eq_none ho] at hx
      have hwithin : dequeueWithin (k + 1) p t = some (dequeueOwn p t₁) := by
        rw [dequeueWithin, hv]
        dsimp only
        rw [hnone]
      refine ⟨_, _, hwithin, hown, fun hfound ↦ ⟨_, t₁, turns_perm hoff, hrounds, ?_⟩⟩
      exact Prod.ext hfound rfl
    · have hwithin : dequeueWithin (k + 1) p t = some (some found, t') := by
        rw [dequeueWithin, hv]
        dsimp only
        rw [hsome]
      exact ⟨_, _, hwithin, hout, fun h ↦ by cases h⟩

/-! ### Queues over whole runs -/

/-- The requests that entered the queue of a node, and those that left it. -/
structure Entry (T : Type) where
  entered : List T := []
  left : List T := []

/-- A shaper, the history of each of its queues, and the requests that were waiting at nodes
that were destroyed. -/
structure Desk (T : Type) where
  tree : Tree T
  journal : Rose (Entry T)
  lost : List T

/-- The requests that wait in a tree. -/
def waiting (t : Tree T) : List T :=
  t.flatten.flatMap fun x ↦ x.queue.map token

/-- A call, and what it does to the queues. A request leaves its queue when it is returned, and
when it is handed to the timeout handler. -/
def Desk.step (s : Desk T) (call : Call T) : Option (Desk T) :=
  match call, TokenShaper.step s.tree call with
  | .createChild p _ _ _, some (.result .success, t) =>
    some { s with tree := t, journal := s.journal.graft p (.node {} []) }
  | .destroyChild p i, some (_, t) =>
    some { tree := t, journal := s.journal.prune p i,
           lost := s.lost ++ ((s.tree.at? (p ++ [i])).map waiting).getD [] }
  | .enqueue p value _ _, some (.timedOut late, t) =>
    some { s with
      tree := t
      journal := s.journal.mapAt
        (fun e ↦ { entered := e.entered ++ [value], left := e.left ++ late }) p }
  | .dequeue _, some (.found (some (q, value)), t) =>
    some { s with
      tree := t
      journal := s.journal.mapAt (fun e ↦ { e with left := e.left ++ [value] }) q }
  | _, some (_, t) => some { s with tree := t }
  | _, none => none

/-- A new shaper and the calls on it. -/
def desks (capacity : ℕ) : TransitionSystem (Desk T) (Call T) where
  init := ⟨createRoot capacity, .node {} [], []⟩
  step := Desk.step

/-- The calls that serve the queues; a node is destroyed when its queue is empty. -/
def Desk.Fair (s : Desk T) : Call T → Prop
  | .createChild _ _ _ _ | .enqueue _ _ _ _ | .get _ _ | .put _ _ | .dequeue _ => True
  | .destroyChild p i => ∀ x, s.tree.label? (p ++ [i]) = some x → x.queue = []
  | _ => False

/-- A node is destroyed when nothing waits below it either, and when it is the turn of a child
that its parent has after that. -/
def Desk.Orderly (s : Desk T) : Call T → Prop
  | .destroyChild p i => ∀ v c, s.tree.at? p = some v → v.children[i]? = some c →
      waiting c = [] ∧ v.label.dequeueOffset < v.children.length
  | _ => True

def queueAt (t : Tree T) (q : Address) : Option (List T) :=
  (t.label? q).map fun x ↦ x.queue.map token

/-- What is to hold of the queues and of the next search. -/
structure Desk.Served (s : Desk T) : Prop where
  /-- A search of a node is safe; if it finds nothing it has visited each child once, and no
  node below has both a request and a token for it. -/
  search : ∀ p v, s.tree.at? p = some v → ∃ found t', dequeue p s.tree = some (found, t') ∧
    (found = none → (∃ order t₁, order.Perm (range v.children.length) ∧
        Rounds (dequeueWithin (s.tree.height - 1)) p order s.tree t₁ ∧
        dequeueOwn p t₁ = (none, t')) ∧
      ∀ q x, p <+: q → s.tree.label? q = some x → x.queue = [] ∨ (get q 1 s.tree).1 = 0)
  /-- What entered a queue is what left it, followed by what waits in it. -/
  queues : ∀ q, Option.Rel (fun queue e ↦ e.entered = e.left ++ queue)
    (queueAt s.tree q) (s.journal.label? q)
  lost : s.lost = []

/-- The invariant of a desk. -/
structure Desk.Inv (s : Desk T) : Prop where
  turn : InTurn s.tree
  queues : ∀ q, Option.Rel (fun queue e ↦ e.entered = e.left ++ queue)
    (queueAt s.tree q) (s.journal.label? q)
  lost : s.lost = []

theorem queueAt_congr (h : t'.map queue = t.map queue) : queueAt t' = queueAt t := by
  funext q
  have hlabel := congrArg (fun u ↦ u.label? q) h
  simp only [label?_map] at hlabel
  have hcomp (u : Tree T) : queueAt u q = ((u.label? q).map queue).map (List.map token) := by
    rw [Option.map_map]
    rfl
  rw [hcomp, hcomp, hlabel]

theorem Ledger.Inv.dequeue {s : Ledger T} (h : s.Inv) (hcard : s.held.card + 1 < 2 ^ 64)
    {found : Found T} (hout : Outcome p s.tree found t) :
    (⟨t, s.held + found.elim 0 fun f ↦ {f.1}⟩ : Ledger T).Inv := by
  cases hout with
  | nothing hsame => simpa using h.congr (hsame.map_eq rfl)
  | @item u q x item rest _ _ _ hgrants hsame =>
    have hu : (⟨u, s.held⟩ : Ledger T).Inv := h.congr (hsame.map_eq rfl)
    have hget := hu.get (n := 1) (p := q) hcard
    rw [get_of_grants (by decide) (hsame.grants.mpr hgrants)] at hget
    exact hget.congr (map_mapAt (f := actualRate) (g := popFront) (fun _ ↦ rfl) q _)

theorem queueAt_mapAt (f : Node T → Node T) (p q : Address) (t : Tree T) : queueAt (t.mapAt f p) q =
      if q = p then (t.label? q).map fun x ↦ (f x).queue.map token
      else queueAt t q := by
  rw [queueAt, label?_mapAt, Option.map_map]
  split <;> rfl

theorem Node.timedOut_append (now : ℕ) (x : Node T) :
    x.timedOut now ++ (x.updateQueueTimer now).queue.map token = x.queue.map token := by
  rw [timedOut, updateQueueTimer, ← map_append, takeWhile_append_dropWhile]

theorem waiting_congr (h : t'.map queue = t.map queue) : waiting t' = waiting t := by
  have hcomp (u : Tree T) : waiting u = (u.map queue).flatten.flatMap (map token) := by
    rw [flatten_map, flatMap_map]
    rfl
  rw [hcomp, hcomp, h]

theorem count_waiting_mapAt [DecidableEq T]
    (hx : t.label? p = some x) (f : Node T → Node T) (value : T) :
    (waiting (t.mapAt f p)).count value + (x.queue.map token).count value =
      (waiting t).count value + ((f x).queue.map token).count value := by
  obtain ⟨v, hv, rfl⟩ := at?_of_label? hx
  obtain ⟨l, r, hflat, hmod⟩ := exists_flatten_modifyAt hv
  rw [waiting, waiting, mapAt, hmod, hflat, flatten_eq, flatten_eq]
  simp only [label_node, children_node, flatMap_append, flatMap_cons, count_append]
  omega

theorem waiting_graft (hv : t.at? p = some v)
    (hx : x.queue = []) : waiting (t.graft p (.node x [])) = waiting t := by
  obtain ⟨l, r, hflat, hmod⟩ := exists_flatten_modifyAt hv
  rw [waiting, waiting, graft, hmod, hflat, flatten_eq, flatten_eq v]
  simp [flattenAll_append, flattenAll, Rose.flatten, hx]

theorem mem_waiting {l : List T} (h : queueAt t p = some l)
    {value : T} (hvalue : value ∈ l) : value ∈ waiting t := by
  obtain ⟨x, hx, rfl⟩ := map_eq_some_iff.mp h
  obtain ⟨v, hv, rfl⟩ := at?_of_label? hx
  obtain ⟨l, r, hflat, -⟩ := exists_flatten_modifyAt hv
  refine mem_flatMap.mpr ⟨v.label, ?_, hvalue⟩
  rw [hflat, flatten_eq]
  simp

namespace Desk.Inv

variable {s : Desk T}

variable {t : Tree T}

theorem congr (h : s.Inv) (hturn : t.map dequeueOffset = s.tree.map dequeueOffset)
    (hqueue : t.map queue = s.tree.map queue) : ({ s with tree := t } : Desk T).Inv := by
  refine ⟨h.turn.congr hturn.symm, fun q ↦ ?_, h.lost⟩
  rw [queueAt_congr hqueue]
  exact h.queues q

theorem isSome_iff (h : s.Inv) (q : Address) :
    (s.tree.label? q).isSome ↔ (s.journal.label? q).isSome := by
  have hq := h.queues q
  rw [queueAt] at hq
  cases hx : s.tree.label? q <;> cases hj : s.journal.label? q <;> rw [hx, hj] at hq <;> simp <;>
    cases hq

variable {s' : Desk T}

theorem createChild (h : s.Inv) (p : Address) (name : String) (rate ceil : ℚ)
    (hs : s.step (.createChild p name rate ceil) = some s') : s'.Inv := by
  simp only [Desk.step, TokenShaper.step] at hs
  obtain ⟨v, hv, -, -, -, ht⟩ | ⟨e, he, ht⟩ := createChild_cases p name rate ceil s.tree
  · simp only [ht, Prod.map, id, some.injEq] at hs
    obtain ⟨j, hj⟩ : ∃ j, s.journal.at? p = some j := by
      rw [← isSome_iff_exists, ← isSome_label?, ← h.isSome_iff, isSome_label?, hv]
      rfl
    have hlen := length_children_eq hv hj h.isSome_iff
    subst hs
    refine ⟨h.turn.graft hv _ rfl, fun q ↦ ?_, h.lost⟩
    · rw [queueAt, label?_graft hv, label?_graft hj, hlen]
      split
      · exact .some rfl
      · exact h.queues q
  · have hs' : some { s with tree := s.tree } = some s' := by
      rw [← hs, ht]
      cases e <;> first | rfl | exact absurd rfl he
    cases hs'
    exact h

variable {p : Address}

theorem destroyChild (h : s.Inv) {i : ℕ} (hok : s.Orderly (.destroyChild p i)) :
    ({ tree := s.tree.prune p i, journal := s.journal.prune p i,
       lost := s.lost ++ ((s.tree.at? (p ++ [i])).map waiting).getD [] } : Desk T).Inv := by
  refine ⟨?_, fun q ↦ ?_, ?_⟩
  · cases hv : s.tree.at? p with
    | none =>
      rw [prune, modifyAt_of_at?_eq_none _ hv]
      exact h.turn
    | some v =>
      obtain ⟨hown, hcs⟩ := forall_node.mp fun q u hu ↦
        h.turn (p ++ q) u (by rw [at?_append, hv]; exact hu)
      refine h.turn.modifyAt hv rfl (forall_node.mpr ⟨?_, fun c hc ↦ ?_⟩)
      · rw [label_node, children_node, length_eraseIdx]
        split
        · rename_i hi
          have := (hok v _ hv (getElem?_eq_getElem hi)).2
          omega
        · exact hown
      · exact hcs c (mem_of_mem_eraseIdx hc)
  · rw [queueAt, label?_prune, label?_prune]
    exact h.queues _
  · have hnone : ((s.tree.at? (p ++ [i])).map waiting).getD [] = [] := by
      rw [at?_append]
      cases hv : s.tree.at? p with
      | none => rfl
      | some v =>
        rw [bind_some, at?_cons]
        cases hc : v.children[i]? with
        | none => rfl
        | some c => exact (hok v c hv hc).1
    rw [hnone, append_nil]
    exact h.lost

theorem enqueue (h : s.Inv) (p : Address) (value : T) (ctime now : ℕ) : ({ s with
        tree := TokenShaper.enqueue p value ctime now s.tree
        journal := s.journal.mapAt (fun e ↦ ⟨e.entered ++ [value],
            e.left ++ enqueueTimedOut p value ctime now s.tree⟩) p } : Desk T).Inv := by
  refine ⟨?_, fun q ↦ ?_, h.lost⟩
  · refine h.turn.congr (Eq.symm ?_)
    exact map_mapAt (f := dequeueOffset)
      (g := fun x : Node T ↦ (x.push value ctime).updateQueueTimer now) (fun _ ↦ rfl) p s.tree
  · have hq := h.queues q
    rw [TokenShaper.enqueue, queueAt_mapAt, label?_mapAt]
    rcases eq_or_ne q p with rfl | hne
    · rw [queueAt] at hq
      rw [if_pos rfl, enqueueTimedOut]
      generalize s.tree.label? q = label at hq ⊢
      generalize s.journal.label? q = entry at hq ⊢
      cases label with
      | none =>
        cases hq
        exact .none
      | some x =>
        obtain hq | _ := hq
        refine .some ?_
        have hsplit := (x.push value ctime).timedOut_append now
        simp only [if_true, map_some, getD_some, append_assoc, hsplit, hq]
        simp [push]
    · simpa [hne] using hq

theorem dequeue (h : s.Inv) {found : Found T} (hout : Outcome p s.tree found t)
    (hs : s' = match found with
      | none => { s with tree := t }
      | some (q, value) => { s with
          tree := t, journal := s.journal.mapAt (fun e ↦ { e with left := e.left ++ [value] }) q }) :
    s'.Inv := by
  cases hout with
  | nothing hsame hturn =>
    subst hs
    refine ⟨hturn, fun q ↦ ?_, h.lost⟩
    dsimp only
    rw [queueAt_congr (hsame.map_eq rfl)]
    exact h.queues q
  | @item u r x item rest _ hx hqueue _ hsame hturn =>
    have hout : InTurn ((u.along (increment 1) r).mapAt popFront r) := by
      refine hturn.congr ?_
      rw [map_mapAt (f := dequeueOffset) (g := popFront) (fun _ ↦ rfl),
        map_along (f := dequeueOffset) (g := increment 1) (fun _ ↦ rfl)]
    have hqueues : (u.along (increment 1) r).map queue = s.tree.map queue := by
      rw [map_along (f := queue) (g := increment 1) (fun _ ↦ rfl), hsame.map_eq rfl]
    subst hs
    refine ⟨hout, fun q ↦ ?_, h.lost⟩
    have hq := h.queues q
    dsimp only
    rw [queueAt_mapAt, label?_mapAt, queueAt_congr hqueues]
    rcases eq_or_ne q r with rfl | hne
    · have hlabel : ((u.along (increment 1) q).label? q).map queue =
          some (item :: rest) := by
        rw [← label?_map, hqueues, label?_map, hx, map_some, hqueue]
      obtain ⟨y, hy, hyqueue⟩ := map_eq_some_iff.mp hlabel
      rw [queueAt, hx, map_some, hqueue] at hq
      rw [if_pos rfl, hy]
      generalize s.journal.label? q = entry at hq ⊢
      obtain hq | _ := hq
      refine .some ?_
      simp [popFront, hyqueue, hq]
    · simpa [hne] using hq

end Desk.Inv

section Runs

variable {s s' : Desk T} {call : Call T}

theorem Desk.Inv.step (h : s.Inv) (hfair : s.Fair call) (hok : s.Orderly call)
    (hs : s.step call = some s') : s'.Inv := by
  cases call with
  | createChild p name rate ceil => exact h.createChild p name rate ceil hs
  | destroyChild p i =>
    cases hs
    exact h.destroyChild hok
  | get p n =>
    cases hs
    exact h.congr (map_get (fun _ ↦ rfl) p s.tree) (map_get (fun _ ↦ rfl) p s.tree)
  | put p n =>
    simp only [Desk.step, TokenShaper.step] at hs
    cases ht : TokenShaper.put p n s.tree <;> rw [ht] at hs <;> cases hs
    exact h.congr (map_put (fun _ ↦ rfl) ht) (map_put (fun _ ↦ rfl) ht)
  | enqueue p value ctime now =>
    cases hs
    exact h.enqueue p value ctime now
  | dequeue p =>
    cases hv : s.tree.at? p with
    | none =>
      have hdeq : TokenShaper.dequeue p s.tree = some (none, s.tree) := by
        rw [TokenShaper.dequeue]
        obtain ⟨k, hk⟩ : ∃ k, s.tree.height = k + 1 := by
          cases s.tree
          exact ⟨_, rfl⟩
        rw [hk, dequeueWithin, hv]
      simp only [Desk.step, TokenShaper.step, hdeq, map_some, Prod.map, id, some.injEq] at hs
      exact hs ▸ h
    | some v =>
      obtain ⟨found, t', hdeq, hout, -⟩ :=
        dequeueWithin_spec hv (height_le_of_at? hv) h.turn
      refine h.dequeue hout ?_
      rw [← TokenShaper.dequeue] at hdeq
      simp only [Desk.step, TokenShaper.step, hdeq, map_some, Prod.map, id] at hs
      cases found with
      | none | some found => exact (some.inj hs).symm
  | _ => exact hfair.elim

/-- **The queues are served**, in every run that destroys nodes in an orderly way. -/
theorem served_of_reach {capacity : ℕ}
    (h : (desks capacity).Reach (fun s call ↦ s.Fair call ∧ s.Orderly call) s) : s.Served := by
  have hinv : s.Inv := by
    induction h with
    | init =>
      refine ⟨forall_node.mpr ⟨le_rfl, fun c hc ↦ by cases hc⟩, fun q ↦ ?_, rfl⟩
      cases q with
      | nil => exact .some rfl
      | cons i q =>
        exact .none
    | step _ hok hs ih => exact ih.step hok.1 hok.2 hs
  refine ⟨fun p v hv ↦ ?_, hinv.queues, hinv.lost⟩
  obtain ⟨found, t', hdeq, hout, hrounds⟩ :=
    dequeueWithin_spec hv (height_le_of_at? hv) hinv.turn
  refine ⟨found, t', hdeq, fun hnone ↦ ⟨hrounds hnone, fun q x hpq hx ↦ ?_⟩⟩
  subst hnone
  obtain ⟨-, -, -, hidle⟩ := hout
  exact (hidle q hpq x hx).imp_right fun hg ↦ by rw [get_of_not_grants hg]

end Runs

/-- A shaper of ten tokens with three children, the last of which has all of them reserved:
whose turn it is, what waits at the last child and what is taken through it. -/
def busy (offset : ℕ) (queue : List (QueueItem Unit)) (actual : ℕ) : Tree Unit :=
  .node { name := "root", rate := 10, ceil := 10, ratePercent := 1, ceilPercent := 1,
          actualRate := actual, dequeueOffset := offset }
    [tenth "idle" 0 0, tenth "next" 0 0,
     .node { name := "main", rate := 10, ceil := 10, ratePercent := 1, ceilPercent := 1,
             actualRate := actual, queue := queue } []]

/-- The history of the queues of a shaper with three children, those of the first two empty. -/
def busyJournal (entered left : List Unit) : Rose (Entry Unit) :=
  .node {} [.node {} [], .node {} [], .node ⟨entered, left⟩ []]

theorem createChild_next : createChild [] "next" 0 1 (ten [tenth "idle" 0 0] : Tree T) =
    (.success, ten [tenth "idle" 0 0, tenth "next" 0 0]) := by
  refine (createChild_ten (by simp [childRateP, ten, tenth]) (by simp) rfl).trans ?_
  simp

theorem createChild_busy :
    createChild [] "main" 1 1 (ten [tenth "idle" 0 0, tenth "next" 0 0] : Tree Unit) =
      (.success, busy 0 [] 0) := by
  refine (createChild_ten (by simp [childRateP, ten, tenth]) le_rfl rfl).trans ?_
  simp [busy, ten, tenth]

theorem reach_busy {ok : Desk Unit → Call Unit → Prop}
    (hok : ∀ s call, (∀ p i, call ≠ .destroyChild p i) → s.Fair call → ok s call) :
    (desks 10).Reach ok ⟨busy 2 [] 1, busyJournal [()] [()], []⟩ := by
  have hone : (desks 10).Reach ok ⟨ten [tenth "idle" 0 0], .node {} [.node {} []], []⟩ := by
    refine .step (a := .createChild [] "idle" 0 1) .init (hok _ _ (by simp) trivial) ?_
    simp only [desks, Desk.step, step, createChild_first, Prod.map, id]
    rfl
  have htwo : (desks 10).Reach ok
      ⟨ten [tenth "idle" 0 0, tenth "next" 0 0], .node {} [.node {} [], .node {} []], []⟩ := by
    refine .step (a := .createChild [] "next" 0 1) hone (hok _ _ (by simp) trivial) ?_
    simp only [desks, Desk.step, step, createChild_next, Prod.map, id]
    rfl
  have hthree : (desks 10).Reach ok ⟨busy 0 [] 0, busyJournal [] [], []⟩ := by
    refine .step (a := .createChild [] "main" 1 1) htwo (hok _ _ (by simp) trivial) ?_
    simp only [desks, Desk.step, step, createChild_busy, Prod.map, id]
    rfl
  have hwait : (desks 10).Reach ok ⟨busy 0 [⟨(), 0⟩] 0, busyJournal [()] [], []⟩ :=
    .step (a := .enqueue [2] () 0 0) hthree (hok _ _ (by simp) trivial) rfl
  exact .step (a := .dequeue []) hwait (hok _ _ (by simp) trivial) rfl

/-- After a request was served. -/
theorem served_busy : (⟨busy 2 [] 1, busyJournal [()] [()], []⟩ : Desk Unit).Served := by
  refine served_of_reach (reach_busy fun s call hcall hfair ↦ ⟨hfair, ?_⟩)
  cases call with
  | destroyChild p i => exact absurd rfl (hcall p i)
  | _ => trivial

/-- The first two of three children are destroyed when it is the third one's turn: the next
search reads behind the last child. -/
theorem not_served : ¬ ∀ (capacity : ℕ) (s : Desk Unit),
    (desks capacity).Reach (fun s call ↦ s.Fair call) s → s.Served := by
  intro h
  have hfirst : (desks 10).Reach (fun s call ↦ s.Fair call)
      ⟨(busy 2 [] 1).prune [] 0, (busyJournal [()] [()]).prune [] 0, []⟩ := by
    refine .step (a := .destroyChild [] 0) (reach_busy fun _ _ _ hfair ↦ hfair) ?_ rfl
    intro x hx
    cases hx
    rfl
  have hsecond : (desks 10).Reach (fun s call ↦ s.Fair call)
      ⟨((busy 2 [] 1).prune [] 0).prune [] 0, ((busyJournal [()] [()]).prune [] 0).prune [] 0,
        []⟩ := by
    refine .step (a := .destroyChild [] 0) hfirst ?_ rfl
    intro x hx
    cases hx
    rfl
  obtain ⟨found, t', hdeq, -⟩ := (h 10 _ hsecond).search [] _ rfl
  have hfail : dequeue [] (((busy 2 [] 1).prune [] 0).prune [] 0) = none := rfl
  rw [hfail] at hdeq
  cases hdeq

end Xzero.TokenShaper
