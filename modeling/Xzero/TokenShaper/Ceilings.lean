import Mathlib.Algebra.BigOperators.Ring.List
import Xzero.TokenShaper.Configuration
import Xzero.TokenShaper.Conservation

/-!
# When a shaper keeps to its ceilings

`get` checks the ceiling of a node when the node borrows from its parent. A node that takes
tokens from its own assured pool adds them to all of its ancestors, and nothing is checked
there: that the ancestors have room rests on the tokens that are reserved for a child not
being used by others. They are not kept apart, though. A node with five of ten tokens
reserved for a child may take all ten itself, since `get` compares the larger of what is
taken and what is reserved with the rate, and not their sum
(**`TokenShaper.not_withinCeilings`**).

Which shapers keep to their ceilings can be said exactly, for requests of a size that no sum
overflows. They are those in which every node reserves nothing or everything for its children
(**`TokenShaper.withinCeilings_iff`**).
-/

namespace Xzero.TokenShaper

open List Rose Option Node

variable {T : Type} {n : ℕ}

/-! ### The checks of `get` as plain sums -/

/-- The tokens reserved for the children. -/
def rates (v : Tree T) : ℕ := (v.children.map fun c ↦ c.label.rate).sum

/-- The tokens taken through the children. -/
def actuals (v : Tree T) : ℕ := (v.children.map fun c ↦ c.label.actualRate).sum

/-- The tokens taken through the children above their rates. -/
def overs (v : Tree T) : ℕ := (v.children.map fun c ↦ c.label.actualRate - c.label.rate).sum

variable {c v : Tree T}

theorem rate_le_rates (hc : c ∈ v.children) : c.label.rate ≤ rates v :=
  le_sum_of_mem (mem_map_of_mem hc)

theorem actualRate_le_actuals (hc : c ∈ v.children) : c.label.actualRate ≤ actuals v :=
  le_sum_of_mem (mem_map_of_mem hc)

theorem overs_le_actuals (v : Tree T) : overs v ≤ actuals v :=
  sum_le_sum fun _ _ ↦ Nat.sub_le _ _

variable {x : Node T}

theorem overRate_eq (ha : x.actualRate < 2 ^ 62) (hr : x.rate < 2 ^ 62) :
    x.overRate = x.actualRate - x.rate := by
  rw [overRate]
  split <;> omega

/-- The figures of a node are small enough for their sums to be exact. -/
structure Small (v : Tree T) : Prop where
  actualRate_lt : v.label.actualRate < 2 ^ 62
  rates_lt : rates v < 2 ^ 62
  actuals_lt : actuals v < 2 ^ 62

theorem Small.childRate_eq (h : Small v) : childRate v = rates v := by
  have hr := h.rates_lt
  rw [childRate, sumOver_eq]
  exact Nat.mod_eq_of_lt (hr.trans (by decide))

theorem Small.assured_iff (h : Small v) (hn : n < 2 ^ 62) :
    Assured n v ↔ max v.label.actualRate (rates v + overs v) + n ≤ v.label.rate := by
  obtain ⟨ha, hr, hs⟩ := h
  have hover : (v.children.map fun c ↦ c.label.overRate).sum = overs v := by
    rw [overs]
    congr 1
    refine map_congr_left fun c hc ↦ overRate_eq ?_ ?_
    · exact (actualRate_le_actuals hc).trans_lt hs
    · exact (rate_le_rates hc).trans_lt hr
  have hle := overs_le_actuals v
  have hO : actualChildOverRate v = overs v := by
    rw [actualChildOverRate, sumOver_eq, hover, Nat.mod_eq_of_lt (by omega)]
  rw [Assured, Small.childRate_eq ⟨ha, hr, hs⟩, hO, add, add,
    Nat.mod_eq_of_lt (by omega : rates v + overs v < 2 ^ 64),
    Nat.mod_eq_of_lt (by omega)]

theorem Small.belowCeil_iff (h : Small v) (hn : n < 2 ^ 62) :
    BelowCeil n v ↔ v.label.actualRate + n ≤ v.label.ceil := by
  have ha := h.actualRate_lt
  rw [BelowCeil, add, Nat.mod_eq_of_lt (by omega)]

def Node.raise (k : ℕ) (x : Node T) : Node T := { x with actualRate := x.actualRate + k }

@[simp] theorem Node.actualRate_raise (k : ℕ) (x : Node T) :
    (x.raise k).actualRate = x.actualRate + k := rfl

theorem Node.increment_eq_raise (h : x.actualRate + n < 2 ^ 64) : x.increment n = x.raise n := by
  rw [increment, raise, add, Nat.mod_eq_of_lt h]

/-! ### Nothing or everything reserved -/

/-- Every node reserves none of its tokens for its children, or all of them. -/
def AllOrNothing (t : Tree T) : Prop :=
  t.Forall fun v ↦ childRate v = 0 ∨ childRate v = v.label.rate

/-- What holds at every node of a shaper that keeps to its ceilings. -/
structure Steady (capacity : ℕ) (v : Tree T) : Prop where
  rates_le : rates v ≤ v.label.rate
  rate_le : v.label.rate ≤ v.label.ceil
  ceil_le : v.label.ceil ≤ capacity
  allOrNothing : rates v = 0 ∨ rates v = v.label.rate
  /-- What is taken through the children is taken through the node. -/
  actuals_le : actuals v ≤ v.label.actualRate
  actualRate_le : v.label.actualRate ≤ v.label.ceil
  /-- A node that reserves its tokens has taken none itself, and lent none. -/
  reserved : 0 < rates v →
    v.label.actualRate ≤ actuals v ∧ ∀ c ∈ v.children, c.label.actualRate ≤ c.label.rate

variable {capacity : ℕ}

theorem Steady.recount (h : Steady capacity v) {k : ℕ} (hk : x = { v.label with actualRate := k })
    {cs : List (Tree T)} (hle : k ≤ v.label.ceil)
    (hrates : (cs.map fun c ↦ c.label.rate).sum = rates v)
    (hactuals : (cs.map fun c ↦ c.label.actualRate).sum ≤ k)
    (hreserved : 0 < rates v → k ≤ (cs.map fun c ↦ c.label.actualRate).sum ∧
      ∀ c ∈ cs, c.label.actualRate ≤ c.label.rate) : Steady capacity (.node x cs) := by
  subst hk
  refine ⟨hrates.trans_le h.rates_le, h.rate_le, h.ceil_le, ?_, hactuals, hle,
    fun hr ↦ hreserved (hr.trans_eq hrates)⟩
  exact h.allOrNothing.imp hrates.trans hrates.trans

theorem Steady.small (h : Steady capacity v) (hcap : capacity < 2 ^ 62) : Small v := by
  obtain ⟨h₁, h₂, h₃, -, h₅, h₆, -⟩ := h
  exact ⟨by omega, by omega, by omega⟩

section Get

variable {capacity : ℕ} (hcap : capacity < 2 ^ 62) (hn : n < 2 ^ 62) (hpos : n ≠ 0)

include hcap hn

variable {v : Tree T}

theorem Steady.of_assured (h : Steady capacity v) (ha : Assured n v) :
    v.label.actualRate + n ≤ v.label.rate ∧ rates v + n ≤ v.label.rate := by
  rw [(h.small hcap).assured_iff hn] at ha
  omega

omit hn in
theorem Steady.increment_eq (h : Steady capacity v)
    (hle : v.label.actualRate + n ≤ v.label.ceil) : v.label.increment n = v.label.raise n := by
  have hceil := h.ceil_le
  exact increment_eq_raise (by omega)

variable {above : Prop}

theorem Steady.room (h : Steady capacity v) {closed : Prop} (hclosed : closed → ¬ above)
    (hlends : Lends n above v) : v.label.actualRate + n ≤ v.label.ceil ∧
      (closed → v.label.actualRate + n ≤ v.label.rate) := by
  rcases hlends with ha | ha
  · have hassured := (h.of_assured hcap hn ha).1
    exact ⟨hassured.trans h.rate_le, fun _ ↦ hassured⟩
  · exact ⟨((h.small hcap).belowCeil_iff hn).mp ha.1, fun hc ↦ absurd ha.2 (hclosed hc)⟩

include hpos

variable {p : Address}

theorem above_of_grants (h : v.Forall (Steady capacity)) (hv : v.label.rate = 0)
    (hg : Grants n above p v) : above := by
  induction p generalizing v above with
  | nil =>
    rcases hg with ha | ha
    · have := ((forall_node.mp h).1.of_assured hcap hn ha).1
      omega
    · exact ha.2
  | cons i p ih =>
    obtain ⟨hv', hcs⟩ := forall_node.mp h
    obtain ⟨c, hc, hg⟩ := hg
    have hmem := mem_of_getElem? hc
    have hrate := rate_le_rates hmem
    have hle := hv'.rates_le
    rcases ih (hcs c hmem) (by omega) hg with ha | ha
    · have := (hv'.of_assured hcap hn ha).1
      omega
    · exact ha.2

/-- A granted request keeps the nodes steady. `closed` says that the node cannot borrow from
above and has not done so; a node with a rate is closed. -/
theorem steady_increment (h : v.Forall (Steady capacity)) {closed : Prop}
    (hclosed : closed → ¬ above ∧ v.label.actualRate ≤ v.label.rate)
    (hrate : 0 < v.label.rate → closed) (hg : Grants n above p v) :
    (v.along (.increment n) p).Forall (Steady capacity) ∧ v.label.actualRate + n ≤ v.label.ceil ∧
      (closed → v.label.actualRate + n ≤ v.label.rate) := by
  induction p generalizing v above closed with
  | nil =>
    obtain ⟨hv, hcs⟩ := forall_node.mp h
    -- a node that gives tokens reserves none
    have hfree : rates v = 0 := by
      have hall := hv.allOrNothing
      have hle := hv.rates_le
      rcases hg with ha | ha
      · have := (hv.of_assured hcap hn ha).2
        omega
      · have hzero : ¬ 0 < v.label.rate := fun hpos ↦ (hclosed (hrate hpos)).1 ha.2
        omega
    have hroom := hv.room hcap hn (fun hc ↦ (hclosed hc).1) hg
    refine ⟨forall_node.mpr ⟨?_, hcs⟩, hroom⟩
    refine hv.recount (hv.increment_eq hcap hroom.1) hroom.1 rfl ?_ fun hpos ↦ absurd hfree hpos.ne'
    exact hv.actuals_le.trans (Nat.le_add_right _ _)
  | cons i p ih =>
    obtain ⟨hv, hcs⟩ := forall_node.mp h
    obtain ⟨c, hc, hg⟩ := hg
    have hmem := mem_of_getElem? hc
    have hfull : 0 < rates v → rates v = v.label.rate := fun hr ↦ hv.allOrNothing.resolve_left hr.ne'
    -- a node that reserves its tokens does not lend
    have hlend : 0 < rates v → ¬ Lends n above v := by
      rintro hr (ha | ha)
      · have := (hv.of_assured hcap hn ha).2
        have := hfull hr
        omega
      · exact (hclosed (hrate (hfull hr ▸ hr))).1 ha.2
    obtain ⟨hsteady, hceil, hcrate⟩ := ih (hcs c hmem)
      (fun hr ↦ ⟨hlend hr, (hv.reserved hr).2 c hmem⟩)
      (fun hr ↦ hr.trans_le (rate_le_rates hmem)) hg
    have hccount : (c.label.increment n).actualRate = c.label.actualRate + n := by
      rw [(forall_node.mp (hcs c hmem)).1.increment_eq hcap hceil, actualRate_raise]
    have hrates := sum_map_modify (fun u : Tree T ↦ u.label.rate) (along (.increment n) p) hc
    have hactuals := sum_map_modify (fun u : Tree T ↦ u.label.actualRate)
      (along (.increment n) p) hc
    simp only [label_along, hccount] at hrates hactuals
    set cs := v.children.modify i (along (.increment n) p)
    have hrates' : (cs.map fun u ↦ u.label.rate).sum = rates v := add_right_cancel hrates
    have hactuals' : (cs.map fun u ↦ u.label.actualRate).sum = actuals v + n := by
      have hsum : (cs.map fun u ↦ u.label.actualRate).sum + c.label.actualRate =
          actuals v + (c.label.actualRate + n) := hactuals
      omega
    have hcs' : 0 < rates v → ∀ u ∈ cs, u.label.actualRate ≤ u.label.rate := by
      intro hr
      refine forall_mem_modify hc (hv.reserved hr).2 ?_
      rw [label_along, hccount]
      exact hcrate hr
    -- where tokens are reserved, what the children take stays within their rates; where none
    -- are, the request was checked at this node
    have hroom : v.label.actualRate + n ≤ v.label.ceil ∧
        (closed → v.label.actualRate + n ≤ v.label.rate) := by
      rcases eq_zero_or_pos (rates v) with hr | hr
      · have hczero : c.label.rate = 0 := Nat.le_zero.mp (hr ▸ rate_le_rates hmem)
        exact hv.room hcap hn (fun hc ↦ (hclosed hc).1)
          (above_of_grants hcap hn hpos (hcs c hmem) hczero hg)
      · have hle : v.label.actualRate + n ≤ v.label.rate :=
          calc v.label.actualRate + n
              ≤ actuals v + n := Nat.add_le_add_right (hv.reserved hr).1 n
            _ = (cs.map fun u ↦ u.label.actualRate).sum := hactuals'.symm
            _ ≤ (cs.map fun u ↦ u.label.rate).sum := sum_le_sum (hcs' hr)
            _ = v.label.rate := hrates'.trans (hfull hr)
        exact ⟨hle.trans hv.rate_le, fun _ ↦ hle⟩
    refine ⟨forall_node.mpr ⟨?_, ?_⟩, hroom⟩
    · refine hv.recount (hv.increment_eq hcap hroom.1) hroom.1 hrates' ?_ fun hr ↦ ⟨?_, hcs' hr⟩
      · exact hactuals'.trans_le (Nat.add_le_add_right hv.actuals_le n)
      · exact (Nat.add_le_add_right (hv.reserved hr).1 n).trans_eq hactuals'.symm
    · exact forall_mem_modify hc hcs hsteady

end Get

/-! ### Putting tokens back -/

variable {cs : List (Tree T)}

variable {u : Tree T}

theorem steady_decrement (h : v.Forall (Steady capacity))
    {p : Address} (hu : v.at? p = some u) (hown : n + actuals u ≤ u.label.actualRate) :
    (v.along (.decrement n) p).Forall (Steady capacity) ∧ n ≤ v.label.actualRate := by
  induction p generalizing v with
  | nil =>
    obtain ⟨hv, hcs⟩ := forall_node.mp h
    cases hu
    refine ⟨forall_node.mpr ⟨hv.recount rfl ?_ rfl ?_ fun hr ↦ ⟨?_, (hv.reserved hr).2⟩, hcs⟩, ?_⟩
    · exact (Nat.sub_le _ _).trans hv.actualRate_le
    · exact Nat.le_sub_of_add_le (by rw [← actuals]; omega)
    · exact (Nat.sub_le _ _).trans (hv.reserved hr).1
    · omega
  | cons i p ih =>
    obtain ⟨hv, hcs⟩ := forall_node.mp h
    obtain ⟨c, hc, hu⟩ := bind_eq_some_iff.mp hu
    have hmem := mem_of_getElem? hc
    obtain ⟨hsteady, hcle⟩ := ih (hcs c hmem) hu
    have hrates := sum_map_modify (fun u : Tree T ↦ u.label.rate) (along (.decrement n) p) hc
    have hactuals := sum_map_modify (fun u : Tree T ↦ u.label.actualRate)
      (along (.decrement n) p) hc
    simp only [label_along] at hrates hactuals
    set cs := v.children.modify i (along (.decrement n) p)
    have hactuals' : (cs.map fun u ↦ u.label.actualRate).sum + n = actuals v := by
      have hsum : (cs.map fun u ↦ u.label.actualRate).sum + c.label.actualRate =
          actuals v + (c.label.actualRate - n) := hactuals
      omega
    have hle := hv.actuals_le
    refine ⟨forall_node.mpr ⟨?_, ?_⟩, by omega⟩
    · refine hv.recount rfl ((Nat.sub_le _ _).trans hv.actualRate_le) (add_right_cancel hrates)
        (Nat.le_sub_of_add_le (hactuals'.trans_le hle)) fun hr ↦ ⟨?_, ?_⟩
      · exact Nat.sub_le_of_le_add ((hv.reserved hr).1.trans_eq hactuals'.symm)
      · refine forall_mem_modify hc (hv.reserved hr).2 ?_
        rw [label_along]
        exact (Nat.sub_le _ _).trans ((hv.reserved hr).2 c hmem)
    · exact forall_mem_modify hc hcs hsteady

/-! ### Shapers built with `createChild` -/

def Call.Creates : Call T → Prop
  | .createChild _ _ _ _ => True
  | _ => False

/-- A shaper set up with `createChild`. -/
def Built (capacity : ℕ) (t : Tree T) : Prop :=
  (shapers capacity).Reach (fun _ call ↦ call.Creates) t

/-- The tokens of a node of a shaper, before any is taken. -/
structure Fresh (capacity : ℕ) (v : Tree T) : Prop where
  actualRate_eq : v.label.actualRate = 0
  actuals_eq : actuals v = 0
  rates_le : rates v ≤ v.label.rate
  rate_le : v.label.rate ≤ v.label.ceil
  ceil_le : v.label.ceil ≤ capacity

theorem Fresh.small (h : Fresh capacity v) (hcap : capacity < 2 ^ 62) : Small v := by
  obtain ⟨h₁, h₂, h₃, h₄, h₅⟩ := h
  exact ⟨by omega, by omega, by omega⟩

variable {t : Tree T}

theorem Built.inv (h : Built capacity t) :
    Consistent t ∧ (t.label.rate = capacity ∧ t.label.ceil = capacity) ∧
      ∀ q x, t.label? q = some x → x.actualRate = 0 := by
  induction h with
  | init =>
    exact ⟨consistent_createRoot capacity, ⟨rfl, rfl⟩, actualRate_createRoot capacity⟩
  | @step t t' call _ hcall hs ih =>
    obtain ⟨hc, hroot, hfresh⟩ := ih
    cases call with
    | createChild p name rate ceil =>
      cases hs
      refine ⟨hc.createChild p name rate ceil, ?_⟩
      obtain ⟨v, hv, -, -, -, ht⟩ | ⟨e, -, ht⟩ := createChild_cases p name rate ceil t
      · have hat (q : Address) := label?_graft hv (v.label.child name rate ceil) q
        have hlabel : (t.graft p (.node (v.label.child name rate ceil) [])).label = t.label := by
          simpa using hat []
        simp only [Prod.map, id, ht]
        refine ⟨hlabel ▸ hroot, fun q x hx ↦ ?_⟩
        rw [hat] at hx
        split at hx
        · cases hx
          rfl
        · exact hfresh q x hx
      · simp only [Prod.map, id, ht]
        exact ⟨hroot, hfresh⟩
    | _ => exact hcall.elim

variable {m : ℕ}

theorem portion_mono {r r' : ℚ} (hr : 0 ≤ r) (hmn : m ≤ n) (hrr' : r ≤ r') :
    portion m r ≤ portion n r' :=
  Nat.floor_mono (mul_le_mul (Nat.cast_le.mpr hmn) hrr' hr n.cast_nonneg)

/-- The rates and ceilings of a consistent tree are ordered, and bounded by those of the
root. -/
theorem Consistent.rate_le (h : Consistent t)
    (hrate : t.label.rate ≤ t.label.ceil) (hceil : t.label.ceil ≤ capacity) :
    t.Forall fun v ↦ v.label.rate ≤ v.label.ceil ∧ v.label.ceil ≤ capacity := by
  induction t using induct with
  | node a cs ih =>
    obtain ⟨hsound, hcs⟩ := consistent_node.mp h
    refine forall_node.mpr ⟨⟨hrate, hceil⟩, fun c hc ↦ ?_⟩
    obtain ⟨hcrate, hcceil⟩ := hsound.portions c hc
    obtain ⟨h₀, h₁, h₂⟩ := (consistent_node.mp (hcs c hc)).1.percent
    refine ih c hc (hcs c hc) ?_ ?_
    · rw [hcrate, hcceil]
      exact portion_mono h₀ hrate h₁
    · rw [hcceil]
      exact (portion_mono (h₀.trans h₁) le_rfl h₂).trans ((portion_one _).trans_le hceil)

theorem Built.fresh (h : Built capacity t) : t.Forall (Fresh capacity) := by
  obtain ⟨hc, hroot, hfresh⟩ := h.inv
  have hle := hc.rate_le (hroot.1.trans hroot.2.symm).le hroot.2.le
  intro p v hv
  refine ⟨hfresh p _ (label?_of_at? hv), ?_, (hc.at? hv).sum_rate_le, (hle p v hv).1,
    (hle p v hv).2⟩
  rw [actuals, sum_children hv fun j x hx ↦ hfresh _ x hx]
  simp

/-! ### Keeping to the ceilings -/

/-- Taking tokens, and putting back tokens that were taken from the same node. -/
def Ledger.Trades (s : Ledger T) : Call T → Prop
  | .get _ _ => True
  | .put p n => n ≤ s.held.count p
  | _ => False

/-- A request small enough for the sums of `get` to be exact. -/
def Call.Moderate : Call T → Prop
  | .get _ n => n < 2 ^ 62
  | _ => True

/-- No node is above its ceiling, and the root is within the capacity of the shaper. -/
def Ledger.WithinCeilings (capacity : ℕ) (s : Ledger T) : Prop :=
  (∀ q x, s.tree.label? q = some x → x.actualRate ≤ x.ceil) ∧ s.tree.label.actualRate ≤ capacity

/-- The invariant of a shaper that reserves all or nothing. -/
structure Ledger.SteadyInv (capacity : ℕ) (s : Ledger T) : Prop where
  inv : s.Inv
  steady : s.tree.Forall (Steady capacity)
  root : s.tree.label.actualRate ≤ s.tree.label.rate

theorem heldThrough_nil (held : Multiset Address) : heldThrough held [] = held.card := by
  simp [heldThrough]

namespace Ledger.SteadyInv

variable {capacity : ℕ} {s : Ledger T}

theorem withinCeilings (h : s.SteadyInv capacity) : s.WithinCeilings capacity := by
  have hroot := h.steady [] _ rfl
  refine ⟨fun q x hx ↦ ?_, hroot.actualRate_le.trans hroot.ceil_le⟩
  obtain ⟨v, hv, rfl⟩ := at?_of_label? hx
  exact (h.steady q v hv).actualRate_le

variable {p : Address}

theorem get (h : s.SteadyInv capacity) (hcap : capacity < 2 ^ 62) (hn : n < 2 ^ 62) :
    (⟨(get p n s.tree).2, s.held + Multiset.replicate (TokenShaper.get p n s.tree).1 p⟩ :
        Ledger T).SteadyInv capacity := by
  have hcard : s.held.card + n < 2 ^ 64 := by
    have hcount := h.inv.count [] _ rfl
    have hle := h.withinCeilings.2
    rw [heldThrough_nil] at hcount
    omega
  have hinv := h.inv.get (p := p) hcard
  obtain ⟨hpos, hg, ht⟩ | ht := get_cases h.inv.counts p n
  · have hclosed : True → ¬ False ∧ s.tree.label.actualRate ≤ s.tree.label.rate :=
      fun _ ↦ ⟨id, h.root⟩
    obtain ⟨hsteady, -, hrate⟩ :=
      steady_increment hcap hn hpos h.steady hclosed (fun _ ↦ trivial) hg
    have hroot : (s.tree.along (.increment n) p).label.actualRate ≤ s.tree.label.rate := by
      rw [label_along]
      exact (Nat.mod_le _ _).trans (hrate trivial)
    rw [ht] at hinv ⊢
    exact ⟨hinv, hsteady, by rw [label_along] at hroot ⊢; exact hroot⟩
  · rw [ht] at hinv ⊢
    exact ⟨hinv, h.steady, h.root⟩

theorem put (h : s.SteadyInv capacity) (hcap : capacity < 2 ^ 62) {t : Tree T}
    (hn : n ≤ s.held.count p) (ht : put p n s.tree = some t) :
    (⟨t, s.held - Multiset.replicate n p⟩ : Ledger T).SteadyInv capacity := by
  have hinv := h.inv.put hn ht
  by_cases hp : (s.tree.at? p).isSome
  · obtain ⟨u, hu⟩ := isSome_iff_exists.mp hp
    have hsmall := (h.steady p u hu).small hcap
    have hown : n + actuals u ≤ u.label.actualRate := by
      obtain ⟨hle, hchild⟩ := refundable_of_put hu ht
      rw [actualChildRate, sumOver_eq, ← actuals,
        Nat.mod_eq_of_lt (hsmall.actuals_lt.trans (by decide))] at hchild
      omega
    rw [h.inv.put_eq hn hp] at ht
    cases ht
    refine ⟨hinv, (steady_decrement h.steady hu hown).1, ?_⟩
    rw [label_along]
    exact (Nat.sub_le _ _).trans h.root
  · rw [put_of_missing hp] at ht
    cases ht
    exact ⟨hinv, h.steady, h.root⟩

end Ledger.SteadyInv

theorem allOrNothing_iff (hcap : capacity < 2 ^ 62) (h : t.Forall (Fresh capacity)) :
    AllOrNothing t ↔ t.Forall fun v ↦ rates v = 0 ∨ rates v = v.label.rate := by
  refine forall₃_congr fun p v hv ↦ ?_
  dsimp only
  rw [((h p v hv).small hcap).childRate_eq]

theorem withinCeilings_of_allOrNothing (hbuilt : Built capacity t)
    (hcap : capacity < 2 ^ 62) (hall : AllOrNothing t) {s : Ledger T}
    (hs : (ledgers t).Reach (fun s call ↦ s.Trades call ∧ call.Moderate) s) :
    s.WithinCeilings capacity := by
  refine Ledger.SteadyInv.withinCeilings ?_
  induction hs with
  | init =>
    obtain ⟨-, -, hfresh⟩ := hbuilt.inv
    refine ⟨Ledger.inv_init hfresh, fun p v hv ↦ ?_, (hfresh [] _ rfl).trans_le (Nat.zero_le _)⟩
    obtain ⟨h₁, h₂, h₃, h₄, h₅⟩ := hbuilt.fresh p v hv
    refine ⟨h₃, h₄, h₅, (allOrNothing_iff hcap hbuilt.fresh).mp hall p v hv, by omega, by omega,
      fun _ ↦ ⟨by omega, fun c hc ↦ ?_⟩⟩
    exact (actualRate_le_actuals hc).trans (h₂.trans_le (Nat.zero_le _))
  | @step s s' call _ hok hs ih =>
    cases call with
    | get p n =>
      cases hs
      exact ih.get hcap hok.2
    | put p n =>
      simp only [ledgers, Ledger.step, step] at hs
      cases ht : put p n s.tree <;> rw [ht] at hs <;> cases hs
      exact ih.put hcap hok.1 ht
    | _ => exact hok.1.elim

/-! ### Taking too much -/

/-- A node takes one token from its assured pool. -/
def Take (t t' : Tree T) : Prop :=
  ∃ p v, t.at? p = some v ∧ Assured 1 v ∧ t' = t.along (.increment 1) p

/-- Nodes take tokens from their assured pools, one after the other. -/
inductive Takes : ℕ → Tree T → Tree T → Prop
  | zero (t : Tree T) : Takes 0 t t
  | succ {k : ℕ} {t t' t'' : Tree T} : Take t t' → Takes k t' t'' → Takes (k + 1) t t''

theorem Node.raise_raise (j k : ℕ) (x : Node T) : (x.raise j).raise k = x.raise (j + k) := by
  rw [raise, raise, raise, add_assoc]

variable {k : ℕ} {t' : Tree T}

theorem Takes.trans {j : ℕ} {t'' : Tree T} (h : Takes j t t') (h' : Takes k t' t'') :
    Takes (j + k) t t'' := by
  induction h with
  | zero t => rwa [zero_add]
  | @succ j _ _ _ hstep _ ih =>
    rw [add_right_comm]
    exact .succ hstep (ih h')

theorem Takes.lift {c' : Tree T} (h : Takes k c c')
    {i : ℕ} (hc : cs[i]? = some c) (hx : x.actualRate + k < 2 ^ 64) :
    Takes k (.node x cs) (.node (x.raise k) (cs.set i c')) := by
  induction h generalizing x cs with
  | zero c =>
    obtain ⟨hi, rfl⟩ := List.getElem?_eq_some_iff.mp hc
    rw [set_getElem_self]
    exact .zero _
  | @succ k c d c' hstep _ ih =>
    obtain ⟨p, v, hv, ha, rfl⟩ := hstep
    obtain ⟨hi, rfl⟩ := List.getElem?_eq_some_iff.mp hc
    have hd : (cs.set i (cs[i].along (.increment 1) p))[i]? =
        some (cs[i].along (.increment 1) p) := getElem?_set_self hi
    have hrest := ih (x := x.raise 1) hd (by rw [actualRate_raise]; omega)
    rw [set_set, raise_raise, add_comm] at hrest
    refine .succ ⟨i :: p, v, ?_, ha, ?_⟩ hrest
    · rw [at?_cons, children_node, hc]
      exact hv
    · rw [along, label_node, children_node, increment_eq_raise (by omega),
        modify_eq_set_get _ hi]
      rfl

theorem takes_own (hx : x.actualRate + m < 2 ^ 64) (h : ∀ j < m, Assured 1 (.node (x.raise j) cs)) :
    Takes m (.node x cs) (.node (x.raise m) cs) := by
  induction m with
  | zero => exact .zero _
  | succ m ih =>
    refine (ih (by omega) fun j hj ↦ h j (by omega)).trans
      (.succ ⟨[], _, rfl, h m (by omega), ?_⟩ (.zero _))
    rw [along, label_node, children_node,
      increment_eq_raise (by rw [actualRate_raise]; omega), raise_raise]

theorem takes_children {k : Tree T → ℕ} (h : ∀ c ∈ cs, ∃ c', Takes (k c) c c') (ds : List (Tree T))
    (hx : x.actualRate + (cs.map k).sum < 2 ^ 64) :
    ∃ cs', Takes (cs.map k).sum (.node x (ds ++ cs)) (.node (x.raise (cs.map k).sum) cs') := by
  induction cs generalizing x ds with
  | nil => exact ⟨_, .zero _⟩
  | cons c cs ih =>
    rw [List.map_cons, List.sum_cons] at hx ⊢
    obtain ⟨c', hc⟩ := h c (by simp)
    have hget : (ds ++ c :: cs)[ds.length]? = some c := by simp
    have hfirst : Takes (k c) (.node x (ds ++ c :: cs)) _ := hc.lift hget (by omega)
    rw [set_append_right _ _ le_rfl, Nat.sub_self, set_cons_zero, append_cons ds c' cs] at hfirst
    obtain ⟨cs', hrest⟩ := ih (fun c hc ↦ h c (by simp [hc])) (x := x.raise (k c)) (ds ++ [c'])
      (by rw [actualRate_raise]; omega)
    rw [raise_raise] at hrest
    exact ⟨cs', hfirst.trans hrest⟩

section Overfill

variable {capacity : ℕ} (hcap : capacity < 2 ^ 62)

include hcap

theorem takes_rate {x : Node T} {cs : List (Tree T)} (h : Fresh capacity (.node x cs))
    (hlt : rates (.node x cs) < x.rate) :
    Takes x.rate (.node x cs) (.node (x.raise x.rate) cs) := by
  obtain ⟨h₁, h₂, h₃, h₄, h₅⟩ := h
  rw [label_node] at h₁ h₃ h₄ h₅
  refine takes_own (by omega) fun j hj ↦ ?_
  have hover := overs_le_actuals (.node x cs)
  have hsmall : Small (.node (x.raise j) cs) := by
    refine ⟨?_, lt_of_le_of_lt h₃ (by omega), lt_of_le_of_lt h₂.le (by decide)⟩
    rw [label_node, actualRate_raise]
    omega
  rw [hsmall.assured_iff (by decide)]
  have hactual : (x.raise j).actualRate = j := by rw [actualRate_raise, h₁, zero_add]
  have hsame : rates (.node (x.raise j) cs) + overs (.node (x.raise j) cs) =
      rates (.node x cs) + overs (.node x cs) := rfl
  rw [label_node, hactual, hsame]
  change max j _ + 1 ≤ x.rate
  omega

variable {v : Tree T}

theorem takes_assured (h : v.Forall (Fresh capacity)) : ∃ v', Takes v.label.rate v v' := by
  induction v using induct with
  | node x cs ih =>
    obtain ⟨hv, hcs⟩ := forall_node.mp h
    rcases hv.rates_le.eq_or_lt with heq | hlt
    · have hsum : (cs.map fun c : Tree T ↦ c.label.rate).sum = x.rate := heq
      obtain ⟨h₁, h₂, h₃, h₄, h₅⟩ := hv
      rw [label_node] at h₁ h₃ h₄ h₅
      obtain ⟨cs', htakes⟩ := takes_children (x := x) (k := fun c : Tree T ↦ c.label.rate)
        (fun c hc ↦ ih c hc (hcs c hc)) [] (by omega)
      rw [hsum] at htakes
      exact ⟨_, htakes⟩
    · exact ⟨_, takes_rate hcap hv hlt⟩

omit hcap in
theorem rates_eq_zero (h : v.Forall (Fresh capacity)) (hv : v.label.rate = 0) :
    v.Forall fun u ↦ rates u = 0 ∨ rates u = u.label.rate := by
  induction v using induct with
  | node x cs ih =>
    obtain ⟨hx, hcs⟩ := forall_node.mp h
    have hzero : rates (.node x cs) = 0 := Nat.le_zero.mp (hv ▸ hx.rates_le)
    refine forall_node.mpr ⟨.inl hzero, fun c hc ↦ ih c hc (hcs c hc) ?_⟩
    exact Nat.le_zero.mp (hzero ▸ rate_le_rates hc)

theorem takes_more (h : v.Forall (Fresh capacity))
    (hall : ¬ v.Forall fun u ↦ rates u = 0 ∨ rates u = u.label.rate) :
    ∃ k, v.label.rate < k ∧ k ≤ 2 * v.label.rate ∧ ∃ v', Takes k v v' := by
  induction v using induct with
  | node x cs ih =>
    obtain ⟨hv, hcs⟩ := forall_node.mp h
    have hle : rates (.node x cs) ≤ x.rate := hv.rates_le
    obtain ⟨h₁, h₂, h₃, h₄, h₅⟩ := id hv
    rw [label_node] at h₁ h₃ h₄ h₅ ⊢
    by_cases hpart : rates (.node x cs) = 0 ∨ rates (.node x cs) = x.rate
    · -- the node itself is as it should be, so it is one of the children that takes too much
      obtain ⟨c, hc, hbad⟩ : ∃ c ∈ cs, ¬ c.Forall fun u ↦ rates u = 0 ∨ rates u = u.label.rate := by
        by_contra hgood
        push Not at hgood
        exact hall (forall_node.mpr ⟨hpart, hgood⟩)
      have hfull : rates (.node x cs) = x.rate := by
        refine hpart.resolve_left fun hzero ↦ hbad (rates_eq_zero (hcs c hc) ?_)
        exact Nat.le_zero.mp (hzero ▸ rate_le_rates hc)
      have hchild : ∀ c ∈ cs, ∃ k, c.label.rate ≤ k ∧ k ≤ 2 * c.label.rate ∧
          ((¬ c.Forall fun u ↦ rates u = 0 ∨ rates u = u.label.rate) → c.label.rate < k) ∧
          ∃ c', Takes k c c' := by
        intro c hc
        by_cases hgood : c.Forall fun u ↦ rates u = 0 ∨ rates u = u.label.rate
        · exact ⟨c.label.rate, le_rfl, by omega, fun h ↦ absurd hgood h,
            takes_assured hcap (hcs c hc)⟩
        · obtain ⟨k, hlt, hle, htakes⟩ := ih c hc (hcs c hc) hgood
          exact ⟨k, hlt.le, hle, fun _ ↦ hlt, htakes⟩
      choose! k hk using hchild
      have hsum : (cs.map fun c : Tree T ↦ c.label.rate).sum = x.rate := hfull
      have hlt : (cs.map fun c : Tree T ↦ c.label.rate).sum < (cs.map k).sum :=
        sum_lt_sum _ _ (fun c hc ↦ (hk c hc).1) ⟨c, hc, (hk c hc).2.2.1 hbad⟩
      have htwo : (cs.map k).sum ≤ 2 * x.rate := by
        rw [← hsum, ← List.sum_map_mul_left]
        exact sum_le_sum fun c hc ↦ (hk c hc).2.1
      obtain ⟨cs', htakes⟩ := takes_children (x := x) (fun c hc ↦ (hk c hc).2.2.2) [] (by omega)
      exact ⟨_, by omega, htwo, _, htakes⟩
    · -- the node takes all of its tokens, and then a child takes those reserved for it
      obtain ⟨c, hc, hpos⟩ : ∃ c ∈ cs, 0 < c.label.rate := by
        by_contra hzero
        push Not at hzero
        refine hpart (.inl (sum_eq_zero fun r hr ↦ ?_))
        obtain ⟨c, hc, rfl⟩ := mem_map.mp hr
        exact Nat.le_zero.mp (hzero c hc)
      obtain ⟨i, hi⟩ := mem_iff_getElem?.mp hc
      obtain ⟨c', hc'⟩ := takes_assured hcap (hcs c hc)
      have hcle : c.label.rate ≤ rates (.node x cs) := rate_le_rates hc
      have hown := takes_rate hcap hv (by omega)
      refine ⟨x.rate + c.label.rate, by omega, by omega, _, hown.trans (hc'.lift hi ?_)⟩
      rw [actualRate_raise]
      omega

end Overfill

/-- What is taken from assured pools is taken by calls of `get`, and counted at the root. -/
theorem reach_of_takes (h : Takes k t t')
    {held : Multiset Address}
    (hs : (ledgers u).Reach (fun s call ↦ s.Trades call ∧ call.Moderate) ⟨t, held⟩)
    (hk : t.label.actualRate + k < 2 ^ 64) :
    ∃ held', (ledgers u).Reach (fun s call ↦ s.Trades call ∧ call.Moderate) ⟨t', held'⟩ ∧
      t'.label.actualRate = t.label.actualRate + k := by
  induction h generalizing held with
  | zero t => exact ⟨held, hs, rfl⟩
  | @succ k t t₁ t₂ hstep _ ih =>
    obtain ⟨p, v, hv, ha, rfl⟩ := hstep
    have hget : get p 1 t = (1, t.along (.increment 1) p) :=
      get_of_grants (by decide) (grants_of_assured hv ha)
    have hcount : (t.along (.increment 1) p).label.actualRate = t.label.actualRate + 1 := by
      rw [label_along, increment_eq_raise (by omega), actualRate_raise]
    have hnext : (ledgers u).Reach (fun s call ↦ s.Trades call ∧ call.Moderate)
        ⟨t.along (increment 1) p, held + Multiset.replicate 1 p⟩ := by
      refine hs.step (a := .get p 1) ⟨trivial, (by decide : 1 < 2 ^ 62)⟩ ?_
      simp only [ledgers, Ledger.step, step, hget, Prod.map, id]
    obtain ⟨held', hreach, hroot⟩ := ih hnext (by omega)
    exact ⟨held', hreach, by omega⟩

/-- **The shapers that keep to their ceilings**, for requests below `2 ^ 62`: those in which
every node reserves nothing or everything for its children. -/
theorem withinCeilings_iff {capacity : ℕ} {t : Tree T} (hbuilt : Built capacity t)
    (hcap : capacity < 2 ^ 62) :
    (∀ s, (ledgers t).Reach (fun s call ↦ s.Trades call ∧ call.Moderate) s →
      s.WithinCeilings capacity) ↔ AllOrNothing t := by
  refine ⟨fun h ↦ ?_, fun hall s hs ↦ withinCeilings_of_allOrNothing hbuilt hcap hall hs⟩
  by_contra hall
  obtain ⟨-, hroot, hfresh⟩ := hbuilt.inv
  rw [allOrNothing_iff hcap hbuilt.fresh] at hall
  obtain ⟨k, hlt, hle, t', htakes⟩ := takes_more hcap hbuilt.fresh hall
  have hzero := hfresh [] _ rfl
  obtain ⟨held, hreach, hcount⟩ := reach_of_takes htakes .init (by omega)
  have := (h _ hreach).2
  dsimp only at this
  omega

/-- A shaper with all of its tokens reserved for one of two children. -/
theorem withinCeilings_main : Built 10 (ten [tenth "idle" 0 0, tenth "main" 10 1] : Tree Unit) ∧
    ∀ s : Ledger Unit, (ledgers (ten [tenth "idle" 0 0, tenth "main" 10 1])).Reach
      (fun s call ↦ s.Trades call ∧ call.Moderate) s → s.WithinCeilings 10 := by
  have hbuilt : Built 10 (ten [tenth "idle" 0 0, tenth "main" 10 1] : Tree Unit) :=
    reach_main trivial trivial
  refine ⟨hbuilt, (withinCeilings_iff hbuilt (by decide)).mpr ?_⟩
  refine forall_node.mpr ⟨.inr rfl, fun c hc ↦ ?_⟩
  refine forall_node.mpr ⟨.inl ?_, ?_⟩ <;>
    rcases mem_pair.mp hc with rfl | rfl <;> simp [tenth, childRate, sumOver]

/-- Ten tokens, five of them reserved for a child: the root takes five tokens twice, and then
the child takes the five that are reserved for it. -/
theorem not_withinCeilings : ¬ ∀ (capacity : ℕ) (t : Tree Unit), Built capacity t →
    ∀ s : Ledger Unit, (ledgers t).Reach (fun s call ↦ s.Trades call) s →
      s.WithinCeilings capacity := by
  intro h
  have hbuilt : Built 10 (vipTree 0 0 : Tree Unit) := by
    refine .step (a := .createChild [] "vip" (1 / 2) 1) .init trivial ?_
    simp only [shapers, step, createChild_vip, Prod.map, id, map_some]
  have hfive : (ledgers (vipTree 0 0)).Reach (fun s call ↦ s.Trades call)
      (⟨vipTree 5 0, 0 + Multiset.replicate 5 []⟩ : Ledger Unit) :=
    TransitionSystem.Reach.init.step (a := .get [] 5) trivial rfl
  have hten : (ledgers (vipTree 0 0)).Reach (fun s call ↦ s.Trades call)
      (⟨vipTree 10 0, 0 + Multiset.replicate 5 [] + Multiset.replicate 5 []⟩ : Ledger Unit) :=
    hfive.step (a := .get [] 5) trivial rfl
  have hmore : (ledgers (vipTree 0 0)).Reach (fun s call ↦ s.Trades call)
      (⟨vipTree 15 5, 0 + Multiset.replicate 5 [] + Multiset.replicate 5 [] +
        Multiset.replicate 5 [0]⟩ : Ledger Unit) :=
    hten.step (a := .get [0] 5) trivial rfl
  exact absurd (h 10 _ hbuilt _ hmore).2 (by decide)

end Xzero.TokenShaper
