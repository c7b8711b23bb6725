import Mathlib.Algebra.Order.BigOperators.Group.List
import Mathlib.Data.List.Flatten
import Xzero.Library.Transition
import Xzero.TokenShaper.Tokens

/-!
# The configuration of a shaper

The nodes of a tree are configured in percent, and the tokens they are assured follow from
that. `Consistent` says what is to hold at every node, `Distinct` that no name is used twice.
Both hold after any sequence of configuration calls in which a new rate leaves the rates of
the siblings room, and in which no node is given the name of the root
(**`TokenShaper.configured_of_reach`**). The calls themselves check neither: `setRate` compares
the new rate with the node's own ceiling only, and a name is looked for below the root only
(**`TokenShaper.not_configured`**).
-/

namespace Xzero.TokenShaper

open List Option Rose Function Except Node

variable {T : Type}

/-! ### What is to hold at a node -/

/-- The configuration of a node and its children. -/
structure Sound (v : Tree T) : Prop where
  percent : 0 ≤ v.label.ratePercent ∧ v.label.ratePercent ≤ v.label.ceilPercent ∧
    v.label.ceilPercent ≤ 1
  /-- Not more than everything is reserved for the children. -/
  reserved : childRateP v ≤ 1
  /-- The tokens of the children are their part of the node's. -/
  portions : ∀ c ∈ v.children, c.label.rate = portion v.label.rate c.label.ratePercent ∧
    c.label.ceil = portion v.label.ceil c.label.ceilPercent

/-- Every node of a tree is configured soundly. -/
def Consistent (t : Tree T) : Prop := t.Forall Sound

/-- What the configuration of a node depends on. -/
def Node.config (x : Node T) : ℕ × ℕ × ℚ × ℚ := (x.rate, x.ceil, x.ratePercent, x.ceilPercent)

variable {v : Tree T}

theorem Sound.congr {v' : Tree T} (hv : v.label.config = v'.label.config)
    (hcs : v.children.map (config ∘ label) = v'.children.map (config ∘ label))
    (h : Sound v) : Sound v' := by
  simp only [config, Prod.mk.injEq] at hv
  obtain ⟨hrate, hceil, hrp, hcp⟩ := hv
  have hsum : childRateP v' = childRateP v := by
    have := congrArg (fun l ↦ (l.map fun k : ℕ × ℕ × ℚ × ℚ ↦ k.2.2.1).sum) hcs
    simpa [childRateP, config, comp_def] using this.symm
  refine ⟨hrp ▸ hcp ▸ h.percent, hsum ▸ h.reserved, fun c hc ↦ ?_⟩
  have hmem : (config ∘ label) c ∈ v.children.map (config ∘ label) :=
    hcs ▸ mem_map_of_mem hc
  obtain ⟨d, hd, hcd⟩ := mem_map.mp hmem
  simp only [comp_apply, config, Prod.mk.injEq] at hcd
  obtain ⟨hcd₁, hcd₂, hcd₃, hcd₄⟩ := hcd
  have := h.portions d hd
  rwa [hcd₁, hcd₂, hcd₃, hcd₄, hrate, hceil] at this

theorem consistent_node : Consistent v ↔ Sound v ∧ ∀ c ∈ v.children, Consistent c :=
  forall_node

variable {n : ℕ}

theorem portion_le {r : ℚ} (hr : 0 ≤ r) : (portion n r : ℚ) ≤ n * r :=
  Nat.floor_le (mul_nonneg n.cast_nonneg hr)

theorem sum_portion_le {rs : List ℚ} (h : ∀ r ∈ rs, 0 ≤ r) :
    (((rs.map (portion n)).sum : ℕ) : ℚ) ≤ n * rs.sum := by
  induction rs with
  | nil => simp
  | cons r rs ih =>
    rw [map_cons, sum_cons, sum_cons, Nat.cast_add, mul_add]
    exact add_le_add (portion_le (h r (by simp))) (ih fun r hr ↦ h r (by simp [hr]))

theorem Consistent.ratePercent_nonneg (h : Consistent v) :
    ∀ r ∈ v.children.map fun c ↦ c.label.ratePercent, 0 ≤ r := by
  intro r hr
  obtain ⟨c, hc, rfl⟩ := mem_map.mp hr
  exact (consistent_node.mp ((consistent_node.mp h).2 c hc)).1.percent.1

theorem Consistent.sum_rate_le (h : Consistent v) :
    (v.children.map fun c ↦ c.label.rate).sum ≤ v.label.rate := by
  have hsound := (consistent_node.mp h).1
  have hrates : (v.children.map fun c ↦ c.label.rate) =
      (v.children.map fun c ↦ c.label.ratePercent).map (portion v.label.rate) := by
    rw [List.map_map]
    exact map_congr_left fun c hc ↦ (hsound.portions c hc).1
  have hle : (((v.children.map fun c ↦ c.label.rate).sum : ℕ) : ℚ) ≤ v.label.rate := by
    rw [hrates]
    calc _ ≤ (v.label.rate : ℚ) * childRateP v := sum_portion_le h.ratePercent_nonneg
      _ ≤ v.label.rate * 1 := mul_le_mul_of_nonneg_left hsound.reserved (Nat.cast_nonneg _)
      _ = v.label.rate := mul_one _
  exact_mod_cast hle

theorem Consistent.childRate_le (h : Consistent v) : childRate v ≤ v.label.rate :=
  (sumOver_le _ _).trans h.sum_rate_le

/-! ### What the calls do to it -/

theorem label_descend (parent : Node T) (v : Tree T) :
    (descend .update parent v).label = .update parent v.label := by
  cases v
  rfl

variable {x : Node T} {cs : List (Tree T)}

theorem sound_refresh (hx : 0 ≤ x.ratePercent ∧ x.ratePercent ≤ x.ceilPercent ∧ x.ceilPercent ≤ 1)
    (hcs : (cs.map fun c ↦ c.label.ratePercent).sum ≤ 1) : Sound (refresh x cs) := by
  rw [refresh, descendAll_eq]
  refine ⟨hx, ?_, fun c hc ↦ ?_⟩
  · simpa [childRateP, label_descend, Node.update, comp_def] using hcs
  · obtain ⟨d, -, rfl⟩ := mem_map.mp hc
    rw [label_descend]
    exact ⟨rfl, rfl⟩

theorem consistent_descend (parent : Node T) (h : Consistent v) :
    Consistent (descend .update parent v) := by
  induction v using induct generalizing parent with
  | node a cs ih =>
    obtain ⟨hsound, hcs⟩ := consistent_node.mp h
    refine consistent_node.mpr ⟨sound_refresh hsound.percent hsound.reserved, fun c hc ↦ ?_⟩
    rw [descend, children_node, descendAll_eq] at hc
    obtain ⟨d, hd, rfl⟩ := mem_map.mp hc
    exact ih d hd _ (hcs d hd)

theorem consistent_refresh
    (hx : 0 ≤ x.ratePercent ∧ x.ratePercent ≤ x.ceilPercent ∧ x.ceilPercent ≤ 1)
    (hsum : (cs.map fun c ↦ c.label.ratePercent).sum ≤ 1) (hcs : ∀ c ∈ cs, Consistent c) :
    Consistent (refresh x cs) := by
  refine consistent_node.mpr ⟨sound_refresh hx hsum, fun c hc ↦ ?_⟩
  rw [refresh, children_node, descendAll_eq] at hc
  obtain ⟨d, hd, rfl⟩ := mem_map.mp hc
  exact consistent_descend _ (hcs d hd)

section Calls

variable {t : Tree T}

theorem consistent_createRoot (capacity : ℕ) : Consistent (createRoot capacity : Tree T) := by
  refine consistent_node.mpr ⟨⟨?_, ?_, ?_⟩, ?_⟩ <;> simp [createRoot, childRateP]

section

variable (h : Consistent t)
include h

variable {p : Address} {v : Tree T}

theorem Consistent.modifyAt (hv : t.at? p = some v)
    {f : Tree T → Tree T} (hk : (f v).label.config = v.label.config) (hf : Consistent (f v)) :
    Consistent (t.modifyAt f p) :=
  (forall_modifyAt (fun _ _ ↦ Sound.congr) hv hk hf h).2

theorem Consistent.at? (hv : t.at? p = some v) : Consistent v := by
  intro q s hs
  exact h (p ++ q) s (by rw [at?_append, hv]; exact hs)

theorem Consistent.createChild (p : Address) (name : String) (rate ceil : ℚ) :
    Consistent (createChild p name rate ceil t).2 := by
  obtain ⟨v, hv, hr, hc, -, ht⟩ | ⟨e, -, ht⟩ := createChild_cases p name rate ceil t
  · obtain ⟨hsound, hcs⟩ := consistent_node.mp (h.at? hv)
    have hleaf : Consistent (.node (v.label.child name rate ceil) [] : Tree T) := by
      refine consistent_node.mpr ⟨⟨⟨hr.1, hc⟩, ?_, ?_⟩, ?_⟩ <;> simp [childRateP]
    rw [ht]
    refine h.modifyAt hv rfl (consistent_node.mpr ⟨⟨hsound.percent, ?_, fun c hc' ↦ ?_⟩, ?_⟩)
    · have := hr.2
      simp only [childRateP, children_node, map_append, sum_append, map_cons,
        map_nil, sum_singleton, label_node, child] at this ⊢
      linarith
    · rcases mem_append.mp hc' with hc' | hc'
      · exact hsound.portions c hc'
      · rw [mem_singleton.mp hc']
        exact ⟨rfl, rfl⟩
    · intro c hc'
      rcases mem_append.mp hc' with hc' | hc'
      · exact hcs c hc'
      · rwa [mem_singleton.mp hc']
  · rwa [ht]

theorem Consistent.destroyChild (p : Address) (i : ℕ) : Consistent (destroyChild p i t) := by
  rw [TokenShaper.destroyChild, prune]
  cases hv : t.at? p with
  | none => rwa [modifyAt_of_at?_eq_none _ hv]
  | some v =>
    obtain ⟨hsound, hcs⟩ := consistent_node.mp (h.at? hv)
    have hsub := eraseIdx_sublist v.children i
    refine h.modifyAt hv rfl (consistent_node.mpr ⟨⟨hsound.percent, ?_, ?_⟩, ?_⟩)
    · exact ((hsub.map _).sum_le_sum (h.at? hv).ratePercent_nonneg).trans hsound.reserved
    · exact fun c hc ↦ hsound.portions c (hsub.subset hc)
    · exact fun c hc ↦ hcs c (hsub.subset hc)

theorem Consistent.mapAt {f : Node T → Node T}
    (hf : ∀ x, (f x).config = x.config) (p : Address) : Consistent (t.mapAt f p) := by
  rw [Rose.mapAt]
  cases hv : t.at? p with
  | none => rwa [modifyAt_of_at?_eq_none _ hv]
  | some v =>
    obtain ⟨hsound, hcs⟩ := consistent_node.mp (h.at? hv)
    exact h.modifyAt hv (hf _) (consistent_node.mpr ⟨hsound.congr (hf _).symm rfl, hcs⟩)

theorem Consistent.resize (capacity : ℕ) : Consistent (resize capacity t) := by
  obtain ⟨hsound, hcs⟩ := consistent_node.mp h
  rw [TokenShaper.resize]
  split
  · exact h
  · exact consistent_refresh hsound.percent hsound.reserved hcs

end

variable {newRate : ℚ} {parent x x' : Node T}

theorem withRate_eq_ok (h : withRate newRate parent x = .ok x') :
    (0 ≤ newRate ∧ newRate ≤ x.ceilPercent) ∧
      x' = { x with ratePercent := newRate, rate := portion parent.rate newRate } := by
  rw [withRate] at h
  split at h
  · cases h
  · rename_i hle
    rw [not_or, not_lt, not_lt] at hle
    exact ⟨hle, (ok.inj h).symm⟩

variable {newCeil : ℚ}

theorem withCeil_eq_ok (h : withCeil newCeil parent x = .ok x') :
    (x.ratePercent ≤ newCeil ∧ newCeil ≤ 1) ∧
      x' = { x with ceilPercent := newCeil, ceil := portion parent.ceil newCeil } := by
  rw [withCeil] at h
  split at h
  · cases h
  · rename_i hle
    rw [not_or, not_lt, not_lt] at hle
    exact ⟨hle, (ok.inj h).symm⟩

theorem withRates_eq_ok (h : withRates newRate newCeil parent x = .ok x') :
    (0 ≤ newRate ∧ newRate ≤ newCeil ∧ newCeil ≤ 1) ∧
      x' = .update parent { x with ratePercent := newRate, ceilPercent := newCeil } := by
  rw [withRates] at h
  split at h
  · cases h
  · split at h
    · cases h
    · rename_i hle hceil
      rw [not_or, not_lt, not_lt] at hle
      exact ⟨⟨hle.1, hle.2, not_lt.mp hceil⟩, (ok.inj h).symm⟩

theorem configure_cases (p : Address)
    (change : Node T → Node T → Except TokenShaperError (Node T)) (t : Tree T) :
    (∃ w j v c x', p = w ++ [j] ∧ t.at? w = some v ∧ v.children[j]? = some c ∧
      change v.label c.label = .ok x' ∧
      configure p change t = (.success, t.modifyAt (fun u ↦ refresh x' u.children) p)) ∨
    ∃ e, configure p change t = (e, t) := by
  cases p with
  | nil => exact .inr ⟨_, rfl⟩
  | cons a l =>
    unfold configure
    cases hparent : t.label? (a :: l).dropLast with
    | none => exact .inr ⟨_, rfl⟩
    | some parent =>
      cases hx : t.label? (a :: l) with
      | none => exact .inr ⟨_, rfl⟩
      | some x =>
        dsimp only
        cases hchange : change parent x with
        | error e => exact .inr ⟨_, rfl⟩
        | ok x' =>
          obtain ⟨v, hv, rfl⟩ := at?_of_label? hparent
          obtain ⟨c, hc, rfl⟩ := at?_of_label? hx
          have hp := dropLast_concat_getLast (cons_ne_nil a l)
          rw [← hp, at?_append, hv, bind_some, at?_cons, bind_eq_some_iff] at hc
          obtain ⟨c', hc', hcc⟩ := hc
          cases hcc
          exact .inl ⟨_, _, v, c, x', hp.symm, hv, hc', hchange, rfl⟩

variable {w : Address} {j : ℕ} {c v : Tree T}

/-- A child with new figures that are sound, that are the parts of its parent's tokens they
should be, and that leave its siblings their rates. -/
theorem Consistent.configure (h : Consistent t)
    (hv : t.at? w = some v) (hc : v.children[j]? = some c)
    (hx : 0 ≤ x.ratePercent ∧ x.ratePercent ≤ x.ceilPercent ∧ x.ceilPercent ≤ 1)
    (hsum : childRateP v - c.label.ratePercent + x.ratePercent ≤ 1)
    (hrate : x.rate = portion v.label.rate x.ratePercent)
    (hceil : x.ceil = portion v.label.ceil x.ceilPercent) :
    Consistent (t.modifyAt (fun u ↦ refresh x u.children) (w ++ [j])) := by
  obtain ⟨hsound, hcs⟩ := consistent_node.mp (h.at? hv)
  have hchild : Consistent (refresh x c.children) := by
    obtain ⟨hcsound, hccs⟩ := consistent_node.mp (hcs c (mem_of_getElem? hc))
    exact consistent_refresh hx hcsound.reserved hccs
  rw [modifyAt_append]
  refine h.modifyAt hv rfl (consistent_node.mpr ⟨⟨hsound.percent, ?_, ?_⟩, ?_⟩)
  · have hmod := sum_map_modify (fun u : Tree T ↦ u.label.ratePercent)
      (fun u ↦ refresh x u.children) hc
    have hnew : (refresh x c.children).label.ratePercent = x.ratePercent := rfl
    simp only [childRateP, Rose.modifyAt, children_node, hnew] at hsum hmod ⊢
    linarith
  · exact forall_mem_modify hc hsound.portions ⟨hrate, hceil⟩
  · exact forall_mem_modify hc hcs hchild

theorem Consistent.setName (h : Consistent t) (p : Address) (value : String) :
    Consistent (setName p value t).2 := by
  rw [TokenShaper.setName]
  split
  · exact h
  · exact Consistent.mapAt (f := fun x ↦ { x with name := value }) h (fun _ ↦ rfl) p

theorem at?_concat (hv : t.at? w = some v)
    (hc : v.children[j]? = some c) : t.at? (w ++ [j]) = some c := by
  rw [at?_append, hv, bind_some, at?_cons, hc]
  rfl

theorem Consistent.child (h : Consistent t) (hv : t.at? w = some v) (hc : v.children[j]? = some c) :
    Sound c ∧ c.label.rate = portion v.label.rate c.label.ratePercent ∧
      c.label.ceil = portion v.label.ceil c.label.ceilPercent := by
  obtain ⟨hsound, hcs⟩ := consistent_node.mp (h.at? hv)
  have hmem := mem_of_getElem? hc
  exact ⟨(consistent_node.mp (hcs c hmem)).1, hsound.portions c hmem⟩

variable {p : Address}

theorem Consistent.setRate (h : Consistent t)
    (hroom : ∀ v x, t.at? p.dropLast = some v → t.label? p = some x →
      childRateP v - x.ratePercent + newRate ≤ 1) :
    Consistent (setRate p newRate t).2 := by
  rw [TokenShaper.setRate]
  obtain ⟨w, j, v, c, x, rfl, hv, hc, hx, ht⟩ | ⟨e, ht⟩ :=
    configure_cases p (withRate newRate) t
  · obtain ⟨hsound, hrate, hceil⟩ := h.child hv hc
    obtain ⟨hle, rfl⟩ := withRate_eq_ok hx
    rw [ht]
    refine h.configure hv hc ⟨hle.1, hle.2, hsound.percent.2.2⟩ ?_ rfl hceil
    exact hroom v c.label (by rwa [dropLast_concat]) (label?_of_at? (at?_concat hv hc))
  · rwa [ht]

theorem Consistent.setCeil (h : Consistent t) (p : Address) (newCeil : ℚ) :
    Consistent (setCeil p newCeil t).2 := by
  rw [TokenShaper.setCeil]
  obtain ⟨w, j, v, c, x, rfl, hv, hc, hx, ht⟩ | ⟨e, ht⟩ :=
    configure_cases p (withCeil newCeil) t
  · obtain ⟨hsound, hrate, hceil⟩ := h.child hv hc
    have hreserved := (consistent_node.mp (h.at? hv)).1.reserved
    obtain ⟨hle, rfl⟩ := withCeil_eq_ok hx
    rw [ht]
    exact h.configure hv hc ⟨hsound.percent.1, hle⟩ (by simpa using hreserved) hrate rfl
  · rwa [ht]

theorem Consistent.setRates (h : Consistent t)
    (hroom : ∀ v x, t.at? p.dropLast = some v → t.label? p = some x →
      childRateP v - x.ratePercent + newRate ≤ 1) :
    Consistent (setRates p newRate newCeil t).2 := by
  rw [TokenShaper.setRates]
  obtain ⟨w, j, v, c, x, rfl, hv, hc, hx, ht⟩ | ⟨e, ht⟩ :=
    configure_cases p (withRates newRate newCeil) t
  · obtain ⟨hle, rfl⟩ := withRates_eq_ok hx
    rw [ht]
    refine h.configure hv hc hle ?_ rfl rfl
    exact hroom v c.label (by rwa [dropLast_concat]) (label?_of_at? (at?_concat hv hc))
  · rwa [ht]

end Calls

/-! ### Names -/

/-- The names of the nodes of a tree. -/
def names (t : Tree T) : List String := t.flatten.map name

/-- The names of the nodes below the root. -/
def namesBelow (t : Tree T) : List String := (flattenAll t.children).map name

theorem names_eq (t : Tree T) : names t = t.label.name :: namesBelow t := by
  rw [names, flatten_eq, map_cons, namesBelow]

variable {name : String} {t : Tree T}

theorem mem_namesBelow : name ∈ namesBelow t ↔ ∃ c ∈ t.children, name ∈ names c := by
  simp only [namesBelow, names, List.mem_map, mem_flattenAll]
  constructor
  · rintro ⟨x, ⟨c, hc, hx⟩, rfl⟩
    exact ⟨c, hc, x, hx, rfl⟩
  · rintro ⟨c, hc, x, hx, rfl⟩
    exact ⟨x, ⟨c, hc, hx⟩, rfl⟩

theorem findChildBelow_eq_none :
    findChildBelow name cs = none ↔ ∀ c ∈ cs, findChild name c = none := by
  induction cs with
  | nil => simp [findChildBelow]
  | cons c cs ih =>
    rw [findChildBelow, forall_mem_cons]
    cases findChild name c with
    | none => simpa using ih
    | some v => simp

theorem findChild_eq_none : findChild name t = none ↔ name ∉ namesBelow t := by
  induction t using induct with
  | node a cs ih =>
    have hbelow : name ∉ namesBelow (.node a cs) ↔
        (∀ c ∈ cs, c.label.name ≠ name) ∧ ∀ c ∈ cs, findChild name c = none := by
      rw [mem_namesBelow, ← forall₂_and]
      push Not
      refine forall₂_congr fun c hc ↦ ?_
      rw [names_eq, mem_cons, not_or, ih c hc, ne_comm]
    rw [hbelow, findChild]
    cases hfind : cs.find? fun c ↦ c.label.name == name with
    | some c =>
      have hname : c.label.name = name := by simpa using find?_some hfind
      simp only [reduceCtorEq, false_iff, not_and]
      exact fun h ↦ absurd hname (h c (mem_of_find?_eq_some hfind))
    | none =>
      rw [find?_eq_none] at hfind
      simpa [findChildBelow_eq_none] using fun _ ↦ hfind

/-! ### Distinct names -/

/-- No two nodes have the same name. -/
def Distinct (t : Tree T) : Prop := (names t).Nodup

theorem exists_names_modifyAt {p : Address} (h : t.at? p = some v) :
    ∃ l r, names t = l ++ names v ++ r ∧
      ∀ f : Tree T → Tree T, names (t.modifyAt f p) = l ++ names (f v) ++ r := by
  obtain ⟨l, r, ht, hf⟩ := exists_flatten_modifyAt h
  refine ⟨l.map name, r.map name, by simp [names, ht], fun f ↦ by simp [names, hf]⟩

theorem names_refresh (x : Node T) (cs : List (Tree T)) :
    names (refresh x cs) = names (.node x cs) := by
  have hbelow (c : Tree T) := map_flatten_descend (f := update) (g := name) (fun _ _ ↦ rfl) x c
  rw [names, names, flatten_eq, flatten_eq, refresh, children_node,
    children_node, descendAll_eq, flattenAll_eq, flattenAll_eq,
    flatMap_map, map_cons, map_cons, map_flatMap, map_flatMap]
  congr 1
  exact flatMap_congr fun c _ ↦ hbelow c

section Names

variable {t : Tree T}

section

variable (h : Distinct t)
include h

theorem Distinct.createChild (p : Address) {name : String} {rate ceil : ℚ}
    (hname : name ≠ t.label.name) :
    Distinct (createChild p name rate ceil t).2 := by
  obtain ⟨v, hv, -, -, hfree, ht⟩ | ⟨e, -, ht⟩ := createChild_cases p name rate ceil t
  · obtain ⟨l, r, hl, hmod⟩ := exists_names_modifyAt hv
    have hnew : name ∉ names t := by
      rw [names_eq, mem_cons, not_or]
      exact ⟨hname, findChild_eq_none.mp hfree⟩
    have hnames : names (.node v.label (v.children ++ [.node (v.label.child name rate ceil) []])) =
        names v ++ [name] := by
      simp [names, flatten_eq, flattenAll_append, flattenAll, child]
    have hperm : (l ++ (names v ++ [name]) ++ r).Perm (name :: names t) := by
      rw [hl, ← append_assoc, append_assoc _ [name]]
      exact perm_middle
    rw [ht, Distinct, graft, hmod, hnames, hperm.nodup_iff]
    exact nodup_cons.mpr ⟨hnew, h⟩
  · rwa [ht]

theorem Distinct.destroyChild (p : Address) (i : ℕ) : Distinct (destroyChild p i t) := by
  rw [TokenShaper.destroyChild, prune]
  cases hv : t.at? p with
  | none => rwa [modifyAt_of_at?_eq_none _ hv]
  | some v =>
    obtain ⟨l, r, hl, hmod⟩ := exists_names_modifyAt hv
    have hsub : (names (.node v.label (v.children.eraseIdx i))).Sublist (names v) := by
      rw [names, names, flatten_eq, flatten_eq, flattenAll_eq, flattenAll_eq]
      exact (((eraseIdx_sublist v.children i).flatMap _).cons_cons _).map _
    rw [Distinct, hmod]
    rw [Distinct, hl] at h
    exact h.sublist (((Sublist.refl l).append hsub).append (Sublist.refl r))

variable {p : Address}

theorem Distinct.setName {value : String}
    (hvalue : p = [] ∨ value ≠ t.label.name) : Distinct (setName p value t).2 := by
  rw [TokenShaper.setName]
  split
  · exact h
  · rename_i hfree
    rw [not_isSome_iff_eq_none, findChild_eq_none] at hfree
    rw [Distinct, names_eq, nodup_cons] at h
    rw [mapAt]
    rcases hvalue with rfl | hvalue
    · rw [Distinct, names_eq, nodup_cons]
      exact ⟨hfree, h.2⟩
    · cases hv : t.at? p with
      | none =>
        rw [modifyAt_of_at?_eq_none _ hv, Distinct, names_eq, nodup_cons]
        exact h
      | some v =>
        obtain ⟨l, r, hl, hmod⟩ := exists_names_modifyAt hv
        have hnew : value ∉ names t := by
          rw [names_eq, mem_cons, not_or]
          exact ⟨hvalue, hfree⟩
        rw [Distinct, hmod, names_eq]
        rw [← nodup_cons, ← names_eq, hl, names_eq] at h
        rw [hl, names_eq] at hnew
        simp only [label_node, append_assoc, cons_append, mem_append,
          mem_cons, not_or, nodup_middle, nodup_cons] at h hnew ⊢
        exact ⟨⟨hnew.1, hnew.2.2⟩, h.2⟩

theorem Distinct.configure
    {change : Node T → Node T → Except TokenShaperError (Node T)}
    (hchange : ∀ parent x x', change parent x = .ok x' → x'.name = x.name) :
    Distinct (configure p change t).2 := by
  obtain ⟨w, j, v, c, x, rfl, hv, hc, hx, ht⟩ | ⟨e, ht⟩ := configure_cases p change t
  · obtain ⟨l, r, hl, hmod⟩ := exists_names_modifyAt (at?_concat hv hc)
    rw [ht, Distinct, hmod, names_refresh, names_eq, label_node, hchange _ _ _ hx]
    rwa [Distinct, hl, names_eq] at h
  · rwa [ht]

theorem Distinct.resize (capacity : ℕ) : Distinct (resize capacity t) := by
  rw [TokenShaper.resize]
  split
  · exact h
  · rw [Distinct, names_refresh, names_eq]
    rwa [Distinct, names_eq] at h

end

end Names

/-! ### Whole runs -/

/-- A shaper of a capacity and the calls on it. -/
def shapers (capacity : ℕ) : TransitionSystem (Tree T) (Call T) where
  init := createRoot capacity
  step t call := (step t call).map Prod.snd

/-- The calls that change the configuration. -/
def Call.Configures : Call T → Prop
  | .get _ _ | .put _ _ | .enqueue _ _ _ _ | .dequeue _ => False
  | _ => True

/-- A new rate leaves the siblings of the node their rates. -/
def LeavesRoom (t : Tree T) : Call T → Prop
  | .setRate p newRate => ∀ v x, t.at? p.dropLast = some v → t.label? p = some x →
      childRateP v - x.ratePercent + newRate ≤ 1
  | .setRates p newRate _ => ∀ v x, t.at? p.dropLast = some v → t.label? p = some x →
      childRateP v - x.ratePercent + newRate ≤ 1
  | _ => True

/-- No other node is given the name of the root. -/
def SparesRootName (t : Tree T) : Call T → Prop
  | .createChild _ name _ _ => name ≠ t.label.name
  | .setName p value => p = [] ∨ value ≠ t.label.name
  | _ => True

/-- The configuration that every node is to have. -/
structure Configured (t : Tree T) : Prop where
  /-- The percentages of the children, and the tokens that follow from them. -/
  reserved : ∀ p v, t.at? p = some v → childRateP v ≤ 1 ∧ childRate v ≤ v.label.rate
  percent : ∀ p x, t.label? p = some x →
    0 ≤ x.ratePercent ∧ x.ratePercent ≤ x.ceilPercent ∧ x.ceilPercent ≤ 1
  /-- The names are pairwise distinct. -/
  distinct : (names t).Nodup
  error : ∀ call e t', step t call = some (.result e, t') → e ≠ .success → t' = t

section Runs

variable {t t' : Tree T} {call : Call T} {reply : Reply T}

theorem Consistent.step (h : Consistent t) (hcall : call.Configures) (hroom : LeavesRoom t call)
    (hs : step t call = some (reply, t')) : Consistent t' := by
  cases call with
  | createChild p name rate ceil =>
    cases hs
    exact h.createChild p name rate ceil
  | destroyChild p i =>
    cases hs
    exact h.destroyChild p i
  | setName p value =>
    cases hs
    exact h.setName p value
  | setRate p newRate =>
    cases hs
    exact h.setRate hroom
  | setCeil p newCeil =>
    cases hs
    exact h.setCeil p newCeil
  | setRates p newRate newCeil =>
    cases hs
    exact h.setRates hroom
  | resize capacity =>
    cases hs
    exact h.resize capacity
  | get | put | enqueue | dequeue => exact hcall.elim

theorem Distinct.step (h : Distinct t) (hcall : call.Configures) (hname : SparesRootName t call)
    (hs : step t call = some (reply, t')) : Distinct t' := by
  cases call with
  | createChild p name rate ceil =>
    cases hs
    exact h.createChild p hname
  | destroyChild p i =>
    cases hs
    exact h.destroyChild p i
  | setName p value =>
    cases hs
    exact h.setName hname
  | setRate p newRate =>
    cases hs
    exact h.configure fun _ _ _ hx ↦ by rw [(withRate_eq_ok hx).2]
  | setCeil p newCeil =>
    cases hs
    exact h.configure fun _ _ _ hx ↦ by rw [(withCeil_eq_ok hx).2]
  | setRates p newRate newCeil =>
    cases hs
    exact h.configure fun _ _ _ hx ↦ by rw [(withRates_eq_ok hx).2]; rfl
  | resize capacity =>
    cases hs
    exact h.resize capacity
  | get | put | enqueue | dequeue => exact hcall.elim

variable {e : TokenShaperError}

theorem configure_error {p : Address}
    {change : Node T → Node T → Except TokenShaperError (Node T)}
    (h : configure p change t = (e, t')) (he : e ≠ .success) : t' = t := by
  obtain ⟨w, j, v, c, x, -, -, -, -, ht⟩ | ⟨e', ht⟩ := configure_cases p change t
  · exact absurd (congrArg Prod.fst (h.symm.trans ht)) he
  · exact congrArg Prod.snd (h.symm.trans ht)

theorem step_error (hs : step t call = some (.result e, t')) (he : e ≠ .success) : t' = t := by
  cases call with
  | createChild p name rate ceil =>
    obtain ⟨v, -, -, -, -, ht⟩ | ⟨e', -, ht⟩ := createChild_cases p name rate ceil t
    · simp [step, ht, Ne.symm he] at hs
    · simp only [step, ht, Prod.map, some.injEq, Prod.mk.injEq] at hs
      exact hs.2.symm
  | setName p value =>
    simp only [step, setName] at hs
    split at hs
    · simp only [Prod.map, some.injEq, Prod.mk.injEq] at hs
      exact hs.2.symm
    · simp [Ne.symm he] at hs
  | setRate p newRate =>
    simp only [step, setRate, Prod.map, some.injEq, Prod.mk.injEq, Reply.result.injEq] at hs
    exact configure_error (Prod.ext hs.1 hs.2) he
  | setCeil p newCeil =>
    simp only [step, setCeil, Prod.map, some.injEq, Prod.mk.injEq, Reply.result.injEq] at hs
    exact configure_error (Prod.ext hs.1 hs.2) he
  | setRates p newRate newCeil =>
    simp only [step, setRates, Prod.map, some.injEq, Prod.mk.injEq, Reply.result.injEq] at hs
    exact configure_error (Prod.ext hs.1 hs.2) he
  | destroyChild | resize | put | enqueue => simp [step] at hs
  | get | dequeue => simp [step, Prod.map] at hs

/-- **The configuration stays consistent**, in every run in which new rates leave the siblings
room and the name of the root is not given away. -/
theorem configured_of_reach {capacity : ℕ} (h : (shapers capacity).Reach
    (fun t call ↦ call.Configures ∧ LeavesRoom t call ∧ SparesRootName t call) t) :
    Configured t := by
  have hinv : Consistent t ∧ Distinct t := by
    induction h with
    | init => exact ⟨consistent_createRoot capacity, by simp [shapers, Distinct, names, createRoot,
        Rose.flatten, Rose.flattenAll]⟩
    | step _ hok hs ih =>
      obtain ⟨⟨reply, t'⟩, hstep, rfl⟩ := map_eq_some_iff.mp hs
      exact ⟨ih.1.step hok.1 hok.2.1 hstep, ih.2.step hok.1 hok.2.2 hstep⟩
  refine ⟨fun p v hv ↦ ?_, fun p x hx ↦ ?_, hinv.2, fun call e t' ↦ step_error⟩
  · exact ⟨(hinv.1 p v hv).reserved, (hinv.1.at? hv).childRate_le⟩
  · obtain ⟨v, hv, rfl⟩ := at?_of_label? hx
    exact (hinv.1 p v hv).percent

end Runs

/-- A child of a shaper of ten tokens, by its rate. -/
def tenth (name : String) (tokens : ℕ) (rate : ℚ) : Tree T :=
  .node { name := name, rate := tokens, ceil := 10, ratePercent := rate, ceilPercent := 1 } []

/-- A shaper of ten tokens and its children. -/
def ten (children : List (Tree T)) : Tree T :=
  .node { name := "root", rate := 10, ceil := 10, ratePercent := 1, ceilPercent := 1 } children

theorem createChild_ten {rate : ℚ}
    (hr : 0 ≤ rate ∧ rate + childRateP (ten cs) ≤ 1) (hone : rate ≤ 1)
    (hf : findChild name (ten cs) = none) :
    createChild [] name rate 1 (ten cs) =
      (.success, ten (cs ++ [tenth name (portion 10 rate) rate])) := by
  rw [createChild_eq rfl hr ⟨hone, le_rfl⟩ hf]
  simp [graft, modifyAt, child, ten, tenth]

theorem createChild_first (name : String) :
    createChild [] name 0 1 (createRoot 10 : Tree T) = (.success, ten [tenth name 0 0]) := by
  have hnew : createChild [] name 0 1 (ten [] : Tree T) = _ :=
    createChild_ten (by simp [childRateP, ten]) (by simp) rfl
  rw [portion_zero] at hnew
  exact hnew

theorem createChild_main : createChild [] "main" 1 1 (ten [tenth "idle" 0 0] : Tree T) =
    (.success, ten [tenth "idle" 0 0, tenth "main" 10 1]) := by
  refine (createChild_ten (by simp [childRateP, ten, tenth]) le_rfl rfl).trans ?_
  simp

theorem setRate_idle : setRate [0] 1 (ten [tenth "idle" 0 0, tenth "main" 10 1] : Tree T) =
    (.success, ten [tenth "idle" 10 1, tenth "main" 10 1]) := by
  have hr : ¬ (1 : ℚ) < 0 := by norm_num
  simp [setRate, configure, ten, tenth, label?_cons, withRate, modifyAt, refresh, descendAll, hr]

theorem reach_main {ok : Tree T → Call T → Prop}
    (hidle : ok (createRoot 10) (.createChild [] "idle" 0 1))
    (hmain : ok (ten [tenth "idle" 0 0]) (.createChild [] "main" 1 1)) :
    (shapers 10).Reach ok (ten [tenth "idle" 0 0, tenth "main" 10 1]) := by
  have h : (shapers 10).Reach ok (ten [tenth "idle" 0 0]) := by
    refine .step .init hidle ?_
    simp only [shapers, step, createChild_first, Prod.map, id, map_some]
  refine .step h hmain ?_
  simp only [shapers, step, createChild_main, Prod.map, id, map_some]

/-- A run with two children. -/
theorem configured_main : Configured (ten [tenth "idle" 0 0, tenth "main" 10 1] : Tree Unit) :=
  configured_of_reach (reach_main ⟨trivial, trivial, (by decide : "idle" ≠ "root")⟩
    ⟨trivial, trivial, (by decide : "main" ≠ "root")⟩)

/-- Neither condition can be dropped. A rate of one is set beside a sibling that has a rate
of one; and a child is given the name of the root. -/
theorem not_configured : (¬ ∀ (capacity : ℕ) (t : Tree Unit), (shapers capacity).Reach
      (fun t call ↦ call.Configures ∧ SparesRootName t call) t → Configured t) ∧
    ¬ ∀ (capacity : ℕ) (t : Tree Unit), (shapers capacity).Reach
      (fun t call ↦ call.Configures ∧ LeavesRoom t call) t → Configured t := by
  constructor
  · intro h
    have hreach : (shapers 10).Reach (fun t call ↦ call.Configures ∧ SparesRootName t call)
        (ten [tenth "idle" 10 1, tenth "main" 10 1] : Tree Unit) := by
      refine .step (a := .setRate [0] 1) (reach_main ⟨trivial, (by decide : "idle" ≠ "root")⟩
        ⟨trivial, (by decide : "main" ≠ "root")⟩) ⟨trivial, trivial⟩ ?_
      simp only [shapers, step, setRate_idle, Prod.map, id, map_some]
    have hsum := ((h 10 _ hreach).reserved [] _ rfl).1
    norm_num [childRateP, ten, tenth] at hsum
  · intro h
    have hreach : (shapers 10).Reach (fun t call ↦ call.Configures ∧ LeavesRoom t call)
        (ten [tenth "root" 0 0] : Tree Unit) := by
      refine .step (a := .createChild [] "root" 0 1) .init ⟨trivial, trivial⟩ ?_
      simp only [shapers, step, createChild_first, Prod.map, id, map_some]
    exact absurd (h 10 _ hreach).distinct (by decide)

end Xzero.TokenShaper
