import Mathlib.Data.Multiset.Count
import Xzero.TokenShaper.Node

/-!
# What `get` and `put` do to the tree

Both climb from a node to the root. `get` either takes its tokens, and then adds them to the
count of the node and of every ancestor, or takes none and leaves the tree alone
(**`TokenShaper.get_of_grants`**, **`TokenShaper.get_of_not_grants`**). Whether it takes them
is decided on the way down from the root as well: `Grants` carries along whether the node
above would lend.
-/

namespace Xzero.TokenShaper

open List Option Rose

variable {T : Type} {n : ℕ} {t : Tree T}

/-- Every counter holds a `size_t`. -/
def Counts (t : Tree T) : Prop := ∀ q x, t.label? q = some x → x.actualRate < 2 ^ 64

/-! ### `createChild` -/

/-- `createChild` checks its arguments and adds a leaf, or else leaves the tree alone. -/
theorem createChild_cases (p : Address) (name : String) (rate ceil : ℚ) (t : Tree T) :
    (∃ v, t.at? p = some v ∧ (0 ≤ rate ∧ rate + childRateP v ≤ 1) ∧ (rate ≤ ceil ∧ ceil ≤ 1) ∧
      findChild name t = none ∧
      createChild p name rate ceil t =
        (.success, t.graft p (.node (v.label.child name rate ceil) []))) ∨
    ∃ e ≠ TokenShaperError.success, createChild p name rate ceil t = (e, t) := by
  rw [createChild]
  cases hv : t.at? p with
  | none => exact .inr ⟨_, by simp, rfl⟩
  | some v =>
    dsimp only
    by_cases hr : rate < 0 ∨ 1 < rate + childRateP v
    · rw [if_pos hr]
      exact .inr ⟨_, by simp, rfl⟩
    by_cases hc : ceil < rate ∨ 1 < ceil
    · rw [if_neg hr, if_pos hc]
      exact .inr ⟨_, by simp, rfl⟩
    by_cases hf : (findChild name t).isSome
    · rw [if_neg hr, if_neg hc, if_pos hf]
      exact .inr ⟨_, by simp, rfl⟩
    · rw [if_neg hr, if_neg hc, if_neg hf]
      simp only [not_or, not_lt, not_isSome_iff_eq_none] at hr hc hf
      exact .inl ⟨v, rfl, hr, hc, hf, rfl⟩

variable {p : Address} {v : Tree T}

theorem createChild_eq {name : String} {rate ceil : ℚ}
    (hv : t.at? p = some v) (hr : 0 ≤ rate ∧ rate + childRateP v ≤ 1)
    (hc : rate ≤ ceil ∧ ceil ≤ 1) (hf : findChild name t = none) :
    createChild p name rate ceil t =
      (.success, t.graft p (.node (v.label.child name rate ceil) [])) := by
  rw [createChild, hv]
  dsimp only
  rw [if_neg (by simpa using hr), if_neg (by simpa using hc), if_neg (by simp [hf])]

@[simp] theorem portion_zero (n : ℕ) : portion n 0 = 0 := by simp [portion]

@[simp] theorem portion_one (n : ℕ) : portion n 1 = n := by simp [portion]

/-- Ten tokens, half of them reserved for one child, with the counts of the two nodes. -/
def vipTree (actual vip : ℕ) : Tree T :=
  .node { name := "root", rate := 10, ceil := 10, ratePercent := 1, ceilPercent := 1,
          actualRate := actual }
    [.node { name := "vip", rate := 5, ceil := 10, ratePercent := 1 / 2, ceilPercent := 1,
             actualRate := vip } []]

theorem createChild_vip :
    createChild [] "vip" (1 / 2) 1 (createRoot 10 : Tree T) = (.success, vipTree 0 0) := by
  have h5 : portion 10 (1 / 2) = 5 := by norm_num [portion]
  rw [createChild_eq rfl (by norm_num [childRateP, createRoot]) (by norm_num) rfl]
  simp [createRoot, graft, modifyAt, Node.child, vipTree, ← h5]

/-! ### `get` -/

/-- The node has `n` tokens to give, its own or from above. -/
def Lends (n : ℕ) (above : Prop) (v : Tree T) : Prop := Assured n v ∨ BelowCeil n v ∧ above

/-- The node at the end of a way down has `n` tokens to give; `above` says whether they may
be borrowed from above the first node. -/
def Grants (n : ℕ) : Prop → Address → Tree T → Prop
  | above, [], v => Lends n above v
  | above, i :: p, v => ∃ c, v.children[i]? = some c ∧ Grants n (Lends n above v) p c

theorem grants_concat (n : ℕ) (above : Prop) (p : Address) (i : ℕ) (t : Tree T) :
    Grants n above (p ++ [i]) t ↔
      ∃ v, t.at? (p ++ [i]) = some v ∧ Lends n (Grants n above p t) v := by
  induction p generalizing above t with
  | nil => simp [Grants, at?_cons, bind_eq_some_iff]
  | cons j p ih =>
    simp only [cons_append, Grants, at?_cons, bind_eq_some_iff, ih]
    constructor
    · rintro ⟨c, hc, v, hv, hl⟩
      refine ⟨v, ⟨c, hc, hv⟩, hl.imp_right (And.imp_right fun h ↦ ⟨c, hc, h⟩)⟩
    · rintro ⟨v, ⟨c, hc, hv⟩, hl⟩
      refine ⟨c, hc, v, hv, hl.imp_right (And.imp_right ?_)⟩
      rintro ⟨c', hc', h⟩
      rwa [some.inj (hc.symm.trans hc')]

variable {above : Prop}

theorem Grants.isSome_at? (h : Grants n above p t) : (t.at? p).isSome := by
  induction p generalizing above t with
  | nil => rfl
  | cons i p ih =>
    obtain ⟨c, hc, h⟩ := h
    rw [at?_cons, hc]
    exact ih h

theorem grants_of_assured (hv : t.at? p = some v) (h : Assured n v) : Grants n above p t := by
  induction p generalizing above t with
  | nil =>
    cases hv
    exact .inl h
  | cons i p ih =>
    obtain ⟨c, hc, hv⟩ := bind_eq_some_iff.mp hv
    exact ⟨c, hc, ih hv⟩

theorem incrementUp_eq (n : ℕ) (way : List ℕ) (t : Tree T) :
    incrementUp n way t = t.along (.increment n) way.reverse := by
  induction way generalizing t with
  | nil => rfl
  | cons i up ih => rw [incrementUp, ih, reverse_cons, along_concat]

variable {way : List ℕ}

theorem getUp_of_grants (hn : n ≠ 0) (h : Grants n False way.reverse t) :
    getUp n way t = (n, t.along (.increment n) way.reverse) := by
  induction way with
  | nil =>
    rw [getUp, reverse_nil, at?_nil]
    dsimp only
    rw [if_pos (h.resolve_right And.right), incrementUp_eq, reverse_nil]
  | cons i up ih =>
    rw [reverse_cons, grants_concat] at h
    obtain ⟨v, hv, hl⟩ := h
    rw [getUp, reverse_cons, hv]
    dsimp only
    by_cases ha : Assured n v
    · rw [if_pos ha, incrementUp_eq, reverse_cons]
    · obtain ⟨hc, hg⟩ := hl.resolve_left ha
      rw [if_neg ha, if_pos hc, ih hg]
      rw [if_neg hn, mapAt_concat_along]

theorem getUp_of_not_grants (h : ¬ Grants n False way.reverse t) : getUp n way t = (0, t) := by
  induction way with
  | nil =>
    rw [getUp, reverse_nil, at?_nil]
    dsimp only
    rw [if_neg fun ha ↦ h (.inl ha)]
    split <;> rfl
  | cons i up ih =>
    rw [reverse_cons, grants_concat] at h
    rw [getUp, reverse_cons]
    cases hv : t.at? (up.reverse ++ [i]) with
    | none => rfl
    | some v =>
      dsimp only
      rw [if_neg fun ha ↦ h ⟨v, hv, .inl ha⟩]
      split
      · rename_i hc
        rw [ih fun hg ↦ h ⟨v, hv, .inr ⟨hc, hg⟩⟩]
        rfl
      · rfl

/-- A request that is granted adds to the counts of the node and of all of its ancestors. -/
theorem get_of_grants (hn : n ≠ 0) (h : Grants n False p t) :
    get p n t = (n, t.along (.increment n) p) := by
  have hg : getUp n p.reverse t = (n, t.along (.increment n) p.reverse.reverse) :=
    getUp_of_grants hn (by rwa [reverse_reverse])
  rwa [reverse_reverse] at hg

theorem get_of_not_grants (h : ¬ Grants n False p t) : get p n t = (0, t) :=
  getUp_of_not_grants (by rwa [reverse_reverse])

theorem getUp_zero (ht : Counts t) (way : List ℕ) : getUp 0 way t = (0, t) := by
  have hinc (way : List ℕ) : incrementUp 0 way t = t := by
    rw [incrementUp_eq]
    refine along_eq_self fun q x hx ↦ ?_
    rw [Node.increment, add, Nat.add_zero, Nat.mod_eq_of_lt (ht q x hx)]
  induction way with
  | nil =>
    rw [getUp, hinc]
    split <;> [rfl; (split <;> [rfl; (split <;> rfl)])]
  | cons i up ih =>
    rw [getUp, hinc, ih]
    split <;> [rfl; (split <;> [rfl; (split <;> rfl)])]

theorem get_cases (ht : Counts t) (p : Address) (n : ℕ) :
    (n ≠ 0 ∧ Grants n False p t ∧ get p n t = (n, t.along (.increment n) p)) ∨
      get p n t = (0, t) := by
  by_cases hg : n ≠ 0 ∧ Grants n False p t
  · exact .inl ⟨hg.1, hg.2, get_of_grants hg.1 hg.2⟩
  · rcases eq_zero_or_pos n with rfl | hn
    · exact .inr (getUp_zero ht _)
    · exact .inr (get_of_not_grants fun h ↦ hg ⟨hn.ne', h⟩)

/-- A `get` that returns nothing changes nothing, be it because nothing was asked for. -/
theorem get_eq_self (ht : Counts t) (h : (get p n t).1 = 0) : (get p n t).2 = t := by
  obtain ⟨hn, -, hg⟩ | hg := get_cases ht p n
  · rw [hg] at h
    exact absurd h hn
  · rw [hg]

variable {β : Type} {f : Node T → β}

theorem map_get (hf : ∀ x : Node T, f (x.increment n) = f x)
    (p : Address) (t : Tree T) : (get p n t).2.map f = t.map f := by
  suffices h : ∀ way : List ℕ, (getUp n way t).2.map f = t.map f from h p.reverse
  intro way
  induction way with
  | nil =>
    rw [getUp, incrementUp_eq]
    split
    · rfl
    · split <;> [exact map_along hf _ t; (split <;> rfl)]
  | cons i up ih =>
    rw [getUp, incrementUp_eq]
    split
    · rfl
    · split
      · exact map_along hf _ t
      · split
        · dsimp only
          split
          · exact ih
          · rw [map_mapAt hf]
            exact ih
        · rfl

theorem map_put (hf : ∀ x : Node T, f (x.decrement n) = f x)
    {t' : Tree T} (h : put p n t = some t') : t'.map f = t.map f := by
  suffices hup : ∀ (way : List ℕ) (t : Tree T), putUp n way t = some t' → t'.map f = t.map f from
    hup p.reverse t h
  intro way
  induction way with
  | nil =>
    intro t h
    rw [putUp] at h
    split at h
    · cases h
      rfl
    · split at h
      · cases h
        exact map_mapAt hf _ t
      · cases h
  | cons i up ih =>
    intro t h
    rw [putUp] at h
    split at h
    · cases h
      rfl
    · split at h
      · exact (ih _ h).trans (map_mapAt hf _ t)
      · cases h

theorem map_refresh
    (hf : ∀ (x : Node T) (rate ceil : ℕ), f { x with rate, ceil } = f x) {x : Node T}
    (hx : f x = f t.label) : (refresh x t.children).map f = t.map f := by
  have hupdate (a b : Node T) : f (.update a b) = f b := hf _ _ _
  rw [refresh, descendAll_eq, map_eq, map_eq f t, label_node, children_node, hx, List.map_map]
  congr 1
  exact map_congr_left fun c _ ↦ map_descend hupdate x c

/-! ### Sums -/

theorem sumOver_eq (f : Node T → ℕ) (cs : List (Tree T)) :
    sumOver f cs = (cs.map fun c ↦ f c.label).sum % 2 ^ 64 := by
  suffices h : ∀ a, (cs.foldl (fun sum c ↦ add sum (f c.label)) (a % 2 ^ 64)) =
      (a + (cs.map fun c ↦ f c.label).sum) % 2 ^ 64 by simpa [sumOver] using h 0
  induction cs with
  | nil => simp
  | cons c cs ih =>
    intro a
    have hc : add (a % 2 ^ 64) (f c.label) = (a + f c.label) % 2 ^ 64 := by simp [add]
    rw [foldl_cons, hc, ih, map_cons, sum_cons, add_assoc]

theorem sumOver_le (f : Node T → ℕ) (cs : List (Tree T)) :
    sumOver f cs ≤ (cs.map fun c ↦ f c.label).sum := by
  rw [sumOver_eq]
  exact Nat.mod_le _ _

end Xzero.TokenShaper
