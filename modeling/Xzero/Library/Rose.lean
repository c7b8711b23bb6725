import Mathlib.Algebra.BigOperators.Group.List.Basic
import Mathlib.Data.List.Induction
import Mathlib.Tactic.Abel

/-!
# Trees with any number of children, and addresses in them

A `Rose` tree carries a label at each node and a list of subtrees below it. A node is named
by its *address*: the positions to take, from the root down. A tree is then a partial
function from addresses to labels, `label?`, and every operation here is described by what
it does to that function:

* `mapAt f p` changes the label at one address;
* `along f p` changes the labels at an address and at all of its ancestors, which is also
  what climbing from the node to the root one label at a time does
  (**`Rose.along_concat`**, **`Rose.mapAt_concat_along`**);
* `graft p t` appends a subtree below an address, and `prune p i` takes one out.

`Rose.Forall P` says that every subtree satisfies `P`.
-/

namespace Xzero

open List Option

/-- A label and the subtrees below it. -/
inductive Rose (α : Type) where
  | node (label : α) (children : List (Rose α))

namespace Rose

variable {α β : Type}

def label : Rose α → α
  | node a _ => a

def children : Rose α → List (Rose α)
  | node _ cs => cs

@[simp] theorem label_node (a : α) (cs : List (Rose α)) : (node a cs).label = a := rfl

@[simp] theorem children_node (a : α) (cs : List (Rose α)) : (node a cs).children = cs := rfl

@[simp] theorem node_eta (t : Rose α) : node t.label t.children = t := by
  cases t
  rfl

/-- A property of trees that passes from the subtrees to the tree holds of every tree. -/
@[elab_as_elim]
theorem induct {P : Rose α → Prop} (node : ∀ a cs, (∀ c ∈ cs, P c) → P (node a cs))
    (t : Rose α) : P t := by
  refine @Rose.rec α P (fun cs ↦ ∀ c ∈ cs, P c) node (by simp) ?_ t
  intro c cs hc hcs
  simpa using ⟨hc, hcs⟩

/-! ### Addresses -/

def at? : List ℕ → Rose α → Option (Rose α)
  | [], t => some t
  | i :: p, t => t.children[i]?.bind (at? p)

def label? (p : List ℕ) (t : Rose α) : Option α := (at? p t).map label

@[simp] theorem at?_nil (t : Rose α) : at? [] t = some t := rfl

theorem at?_cons (i : ℕ) (p : List ℕ) (t : Rose α) :
    at? (i :: p) t = t.children[i]?.bind (at? p) := rfl

@[simp] theorem label?_nil (t : Rose α) : label? [] t = some t.label := rfl

theorem label?_cons (i : ℕ) (p : List ℕ) (t : Rose α) :
    label? (i :: p) t = t.children[i]?.bind (label? p) := by
  rw [label?, at?_cons, map_bind]
  rfl

theorem at?_append (p q : List ℕ) (t : Rose α) : at? (p ++ q) t = (at? p t).bind (at? q) := by
  induction p generalizing t with
  | nil => rfl
  | cons i p ih =>
    rw [cons_append, at?_cons, at?_cons, bind_assoc]
    exact congrArg _ (funext ih)

theorem label?_append (p q : List ℕ) (t : Rose α) :
    label? (p ++ q) t = (at? p t).bind (label? q) := by
  rw [label?, at?_append, map_bind]
  rfl

theorem label?_of_at? {p : List ℕ} {t s : Rose α} (h : at? p t = some s) :
    label? p t = some s.label := by
  rw [label?, h]
  rfl

theorem at?_of_label? {p : List ℕ} {t : Rose α} {a : α} (h : label? p t = some a) :
    ∃ s, at? p t = some s ∧ s.label = a := by
  rwa [label?, map_eq_some_iff] at h

@[simp] theorem isSome_label? (p : List ℕ) (t : Rose α) :
    (label? p t).isSome = (at? p t).isSome := by
  rw [label?, isSome_map]

theorem isSome_at?_of_isPrefix {p q : List ℕ} {t : Rose α} (hpq : p <+: q)
    (h : (at? q t).isSome) : (at? p t).isSome := by
  obtain ⟨r, rfl⟩ := hpq
  rw [at?_append] at h
  cases hp : at? p t with
  | none => simp [hp] at h
  | some s => rfl

theorem isSome_label?_concat {p : List ℕ} {t s : Rose α} (h : at? p t = some s) (i : ℕ) :
    (label? (p ++ [i]) t).isSome ↔ i < s.children.length := by
  rw [label?_append, h, bind_some, label?_cons]
  rcases lt_or_ge i s.children.length with hi | hi
  · simp [hi]
  · simp [hi]

theorem length_children_eq {p : List ℕ} {t s : Rose α} {t' s' : Rose β} (hs : at? p t = some s)
    (hs' : at? p t' = some s') (h : ∀ q, (label? q t).isSome ↔ (label? q t').isSome) :
    s.children.length = s'.children.length := by
  have hlt (i : ℕ) : i < s.children.length ↔ i < s'.children.length := by
    rw [← isSome_label?_concat hs, ← isSome_label?_concat hs', h]
  exact Nat.le_antisymm (Nat.le_of_not_lt fun h ↦ absurd ((hlt _).mp h) (Nat.lt_irrefl _))
    (Nat.le_of_not_lt fun h ↦ absurd ((hlt _).mpr h) (Nat.lt_irrefl _))

/-! ### One property of every subtree -/

/-- Every subtree satisfies `P`. -/
def Forall (P : Rose α → Prop) (t : Rose α) : Prop := ∀ p s, at? p t = some s → P s

theorem forall_node {P : Rose α → Prop} {t : Rose α} :
    Forall P t ↔ P t ∧ ∀ c ∈ t.children, Forall P c := by
  constructor
  · intro h
    refine ⟨h [] t rfl, fun c hc p s hs ↦ ?_⟩
    obtain ⟨i, hi⟩ := mem_iff_getElem?.mp hc
    exact h (i :: p) s (by rw [at?_cons, hi]; exact hs)
  · rintro ⟨h, hcs⟩ p s hs
    cases p with
    | nil => exact some.inj hs ▸ h
    | cons i p =>
      obtain ⟨c, hc, hs⟩ := bind_eq_some_iff.mp hs
      exact hcs c (mem_of_getElem? hc) p s hs

/-! ### Changing one label, or all labels on the way to one -/

theorem sum_map_modify {M : Type} [AddCommMonoid M] (g : β → M) (f : β → β) {l : List β} {i : ℕ}
    {b : β} (h : l[i]? = some b) :
    ((l.modify i f).map g).sum + g b = (l.map g).sum + g (f b) := by
  obtain ⟨hi, rfl⟩ := List.getElem?_eq_some_iff.mp h
  have hold : (l.map g).sum = ((l.take i ++ l[i] :: l.drop (i + 1)).map g).sum := by
    rw [getElem_cons_drop hi, take_append_drop]
  rw [modify_eq_take_cons_drop hi, hold]
  simp only [map_append, map_cons, sum_append, sum_cons]
  abel

theorem forall_mem_modify {P : β → Prop} {f : β → β} {l : List β} {i : ℕ} {b : β}
    (h : l[i]? = some b) (hl : ∀ a ∈ l, P a) (hb : P (f b)) : ∀ a ∈ l.modify i f, P a := by
  intro a ha
  obtain ⟨j, hj⟩ := List.mem_iff_getElem?.mp ha
  rw [getElem?_modify, Option.map_eq_map, map_eq_some_iff] at hj
  obtain ⟨c, hc, rfl⟩ := hj
  by_cases hij : i = j
  · subst hij
    cases h.symm.trans hc
    simpa using hb
  · simp only [hij, if_false]
    exact hl c (mem_of_getElem? hc)

theorem modify_eq_self {f : β → β} {l : List β} {i : ℕ} (h : ∀ b, l[i]? = some b → f b = b) :
    l.modify i f = l := by
  refine ext_getElem? fun j ↦ ?_
  rw [getElem?_modify]
  rcases eq_or_ne i j with rfl | hij
  · cases hb : l[i]? with
    | none => rfl
    | some b => simp [h b hb]
  · simp [hij]

/-- Replace the subtree at an address. -/
def modifyAt (f : Rose α → Rose α) : List ℕ → Rose α → Rose α
  | [], t => f t
  | i :: p, t => node t.label (t.children.modify i (modifyAt f p))

def mapAt (f : α → α) (p : List ℕ) (t : Rose α) : Rose α :=
  modifyAt (fun s ↦ node (f s.label) s.children) p t

/-- Change the labels at an address and at all of its ancestors. -/
def along (f : α → α) : List ℕ → Rose α → Rose α
  | [], t => node (f t.label) t.children
  | i :: p, t => node (f t.label) (t.children.modify i (along f p))

/-- Append a subtree below an address. -/
def graft (p : List ℕ) (t c : Rose α) : Rose α :=
  modifyAt (fun s ↦ node s.label (s.children ++ [c])) p t

/-- Take out the subtree at a position below an address. -/
def prune (p : List ℕ) (i : ℕ) (t : Rose α) : Rose α :=
  modifyAt (fun s ↦ node s.label (s.children.eraseIdx i)) p t

@[simp] theorem label_along (f : α → α) (p : List ℕ) (t : Rose α) :
    (along f p t).label = f t.label := by
  cases p <;> rfl

theorem label?_along (f : α → α) (p q : List ℕ) (t : Rose α) :
    label? q (along f p t) = (label? q t).map (fun a ↦ if q <+: p then f a else a) := by
  induction p generalizing q t with
  | nil =>
    cases q with
    | nil => rfl
    | cons j q => simp [along, label?_cons]
  | cons i p ih =>
    cases q with
    | nil => simp [along]
    | cons j q =>
      simp only [along, label?_cons, children_node, getElem?_modify, cons_prefix_cons]
      cases t.children[j]? with
      | none => rfl
      | some c =>
        by_cases h : i = j
        · simp [h, ih]
        · simp [h, Ne.symm h, Option.map_id']

theorem along_eq_self {f : α → α} {p : List ℕ} {t : Rose α}
    (h : ∀ q a, label? q t = some a → f a = a) : along f p t = t := by
  induction p generalizing t with
  | nil => rw [along, h [] t.label rfl, node_eta]
  | cons i p ih =>
    have hcs : t.children.modify i (along f p) = t.children := modify_eq_self fun c hc ↦
      ih fun q a hq ↦ h (i :: q) a (by rw [label?_cons, hc]; exact hq)
    rw [along, h [] t.label rfl, hcs, node_eta]

theorem at?_append_modifyAt (f : Rose α → Rose α) (p q : List ℕ) (t : Rose α) :
    at? (p ++ q) (modifyAt f p t) = (at? p t).bind (fun s ↦ at? q (f s)) := by
  induction p generalizing t with
  | nil => rfl
  | cons i p ih =>
    simp only [cons_append, modifyAt, at?_cons, children_node, getElem?_modify]
    cases t.children[i]? with
    | none => rfl
    | some c => simpa using ih c

theorem modifyAt_of_at?_eq_none (f : Rose α → Rose α) {p : List ℕ} {t : Rose α}
    (h : at? p t = none) : modifyAt f p t = t := by
  induction p generalizing t with
  | nil => cases h
  | cons i p ih =>
    have hcs : t.children.modify i (modifyAt f p) = t.children := modify_eq_self fun c hc ↦
      ih (by rwa [at?_cons, hc] at h)
    rw [modifyAt, hcs, node_eta]

theorem modifyAt_append (f : Rose α → Rose α) (p q : List ℕ) (t : Rose α) :
    modifyAt f (p ++ q) t = modifyAt (modifyAt f q) p t := by
  induction p generalizing t with
  | nil => rfl
  | cons i p ih =>
    simp only [cons_append, modifyAt]
    rw [show modifyAt f (p ++ q) = modifyAt (modifyAt f q) p from funext ih]

/-- Replacing a subtree keeps a property of all subtrees, if the property of a tree depends on
the labels of the root and of its children only, up to a function `k` of them, and the new
subtree has it and looks the same from its parent. -/
theorem forall_modifyAt {P : Rose α → Prop} {k : α → β}
    (hP : ∀ s s' : Rose α, k s.label = k s'.label →
      s.children.map (k ∘ label) = s'.children.map (k ∘ label) → P s → P s')
    {f : Rose α → Rose α} {p : List ℕ} {t s : Rose α} (hs : at? p t = some s)
    (hk : k (f s).label = k s.label) (hfs : Forall P (f s)) (h : Forall P t) :
    k (modifyAt f p t).label = k t.label ∧ Forall P (modifyAt f p t) := by
  induction p generalizing t with
  | nil =>
    cases hs
    exact ⟨hk, hfs⟩
  | cons i p ih =>
    obtain ⟨c, hc, hs⟩ := bind_eq_some_iff.mp hs
    obtain ⟨ht, hcs⟩ := forall_node.mp h
    obtain ⟨hlabel, hall⟩ := ih hs (hcs c (mem_of_getElem? hc))
    refine ⟨rfl, forall_node.mpr ⟨hP t _ rfl ?_ ht, forall_mem_modify hc hcs hall⟩⟩
    · refine ext_getElem? fun j ↦ ?_
      rw [modifyAt, children_node, getElem?_map, getElem?_map, getElem?_modify]
      by_cases hij : i = j
      · subst hij
        simp [hc, hlabel]
      · simp [hij]

theorem label?_modifyAt_of_not_isPrefix (f : Rose α → Rose α) {p q : List ℕ} (t : Rose α)
    (h : ¬ p <+: q) : label? q (modifyAt f p t) = label? q t := by
  induction p generalizing q t with
  | nil => exact absurd ( nil_prefix) h
  | cons i p ih =>
    cases q with
    | nil => rfl
    | cons j q =>
      simp only [modifyAt, label?_cons, children_node, getElem?_modify]
      cases t.children[j]? with
      | none => rfl
      | some c =>
        by_cases hij : i = j
        · simpa [hij] using ih c fun hp ↦ h (hij ▸ cons_prefix_cons.mpr ⟨rfl, hp⟩)
        · simp [hij]

theorem label?_mapAt (f : α → α) (p q : List ℕ) (t : Rose α) :
    label? q (mapAt f p t) = (label? q t).map (fun a ↦ if q = p then f a else a) := by
  by_cases h : p <+: q
  · obtain ⟨r, rfl⟩ := h
    rw [mapAt, label?, at?_append_modifyAt, label?_append]
    cases at? p t with
    | none => rfl
    | some s =>
      cases r with
      | nil => simp
      | cons j r => simp [at?_cons, label?, map_bind]
  · have hq : q ≠ p := fun hq ↦ h (hq ▸ prefix_rfl)
    rw [mapAt, label?_modifyAt_of_not_isPrefix _ _ h]
    simp [hq]

theorem label?_graft {p : List ℕ} {t s : Rose α} (h : at? p t = some s) (a : α) (q : List ℕ) :
    label? q (graft p t (node a [])) =
      if q = p ++ [s.children.length] then some a else label? q t := by
  by_cases hq : p <+: q
  · obtain ⟨r, rfl⟩ := hq
    rw [graft, label?, at?_append_modifyAt, label?_append, h]
    cases r with
    | nil => simp
    | cons j r =>
      simp only [bind_some, at?_cons, label?_cons, children_node, map_bind,
        append_cancel_left_eq, cons.injEq]
      rcases lt_trichotomy j s.children.length with hj | rfl | hj
      · rw [getElem?_append_left hj, if_neg fun h ↦ ne_of_lt hj h.1]
        rfl
      · cases r <;> simp [at?_cons]
      · have hj' : 0 < j - s.children.length := by omega
        have hle : s.children.length ≤ j := le_of_lt hj
        rw [getElem?_append_right hle, if_neg fun h ↦ ne_of_gt hj h.1,
          getElem?_eq_none hle, getElem?_eq_none hj']
        rfl
  · rw [graft, label?_modifyAt_of_not_isPrefix _ _ hq, if_neg]
    rintro rfl
    exact hq (prefix_append _ _)

theorem along_nil (f : α → α) (t : Rose α) : along f [] t = mapAt f [] t := rfl

theorem along_concat (f : α → α) (p : List ℕ) (i : ℕ) (t : Rose α) :
    along f (p ++ [i]) t = along f p (mapAt f (p ++ [i]) t) := by
  induction p generalizing t with
  | nil => rfl
  | cons j p ih =>
    simp only [cons_append, along, mapAt, modifyAt, label_node, children_node, modify_modify_eq]
    congr 2
    exact funext ih

theorem mapAt_concat_along (f : α → α) (p : List ℕ) (i : ℕ) (t : Rose α) :
    mapAt f (p ++ [i]) (along f p t) = along f (p ++ [i]) t := by
  induction p generalizing t with
  | nil => rfl
  | cons j p ih =>
    simp only [cons_append, along, mapAt, modifyAt, label_node, children_node, modify_modify_eq]
    congr 2
    exact funext ih

/-! ### Labels computed from the root down -/

mutual

/-- Recompute each label from its parent's new one. -/
def descend (f : α → α → α) (parent : α) : Rose α → Rose α
  | node a cs => node (f parent a) (descendAll f (f parent a) cs)

/-- Recompute the labels below a node. -/
def descendAll (f : α → α → α) (parent : α) : List (Rose α) → List (Rose α)
  | [] => []
  | c :: cs => descend f parent c :: descendAll f parent cs

end

theorem descendAll_eq (f : α → α → α) (parent : α) (cs : List (Rose α)) :
    descendAll f parent cs = cs.map (descend f parent) := by
  induction cs with
  | nil => rfl
  | cons c cs ih => rw [descendAll, ih, map_cons]

/-! ### Height -/

mutual

/-- The number of nodes on the longest way down. -/
def height : Rose α → ℕ
  | node _ cs => heights cs + 1

/-- The largest height of some trees. -/
def heights : List (Rose α) → ℕ
  | [] => 0
  | c :: cs => max (height c) (heights cs)

end

/-! ### All labels -/

mutual

/-- The labels, each before those below it. -/
def flatten : Rose α → List α
  | node a cs => a :: flattenAll cs

def flattenAll : List (Rose α) → List α
  | [] => []
  | c :: cs => flatten c ++ flattenAll cs

end

theorem flattenAll_append (cs ds : List (Rose α)) :
    flattenAll (cs ++ ds) = flattenAll cs ++ flattenAll ds := by
  induction cs with
  | nil => rfl
  | cons c cs ih => simp [flattenAll, ih]

theorem flatten_eq (t : Rose α) : t.flatten = t.label :: flattenAll t.children := by
  cases t
  rfl

theorem mem_flattenAll {a : α} {cs : List (Rose α)} :
    a ∈ flattenAll cs ↔ ∃ c ∈ cs, a ∈ c.flatten := by
  induction cs with
  | nil => simp [flattenAll]
  | cons c cs ih => simp [flattenAll, ih]

theorem flattenAll_eq (cs : List (Rose α)) : flattenAll cs = cs.flatMap flatten := by
  induction cs with
  | nil => rfl
  | cons c cs ih => rw [flattenAll, ih, flatMap_cons]

theorem exists_flatten_modifyAt {p : List ℕ} {t s : Rose α} (h : at? p t = some s) :
    ∃ l r, t.flatten = l ++ s.flatten ++ r ∧
      ∀ f : Rose α → Rose α, (modifyAt f p t).flatten = l ++ (f s).flatten ++ r := by
  induction p generalizing t with
  | nil =>
    cases h
    exact ⟨[], [], by simp, fun f ↦ by simp [modifyAt]⟩
  | cons i p ih =>
    obtain ⟨c, hc, hs⟩ := bind_eq_some_iff.mp h
    obtain ⟨l, r, hflat, hmod⟩ := ih hs
    obtain ⟨hi, rfl⟩ := List.getElem?_eq_some_iff.mp hc
    refine ⟨t.label :: flattenAll (t.children.take i) ++ l, r ++ flattenAll (t.children.drop (i + 1)),
      ?_, fun f ↦ ?_⟩
    · have hsplit : flattenAll t.children =
          flattenAll (t.children.take i ++ t.children[i] :: t.children.drop (i + 1)) := by
        rw [getElem_cons_drop hi, take_append_drop]
      rw [flatten_eq, hsplit, flattenAll_append, flattenAll, hflat]
      simp only [cons_append, append_assoc]
    · rw [modifyAt, flatten, modify_eq_take_cons_drop hi]
      simp [flattenAll_append, flattenAll, hmod]

/-! ### Trees up to a function of the labels -/

mutual

/-- Apply a function to every label. -/
def map (f : α → β) : Rose α → Rose β
  | node a cs => node (f a) (mapAll f cs)

/-- Apply a function to every label of some trees. -/
def mapAll (f : α → β) : List (Rose α) → List (Rose β)
  | [] => []
  | c :: cs => map f c :: mapAll f cs

end

section

variable (f : α → β)
include f

theorem mapAll_eq (cs : List (Rose α)) : mapAll f cs = cs.map (map f) := by
  induction cs with
  | nil => rfl
  | cons c cs ih => rw [mapAll, ih, map_cons]

theorem map_eq (t : Rose α) : map f t = node (f t.label) (t.children.map (map f)) := by
  cases t
  rw [map, mapAll_eq]
  rfl

@[simp] theorem label_map (t : Rose α) : (map f t).label = f t.label := by
  rw [map_eq, label_node]

@[simp] theorem children_map (t : Rose α) : (map f t).children = t.children.map (map f) := by
  rw [map_eq, children_node]

theorem at?_map (p : List ℕ) (t : Rose α) : at? p (map f t) = (at? p t).map (map f) := by
  induction p generalizing t with
  | nil => rfl
  | cons i p ih =>
    rw [at?_cons, at?_cons, children_map, getElem?_map]
    cases t.children[i]? with
    | none => rfl
    | some c => exact ih c

theorem label?_map (p : List ℕ) (t : Rose α) : label? p (map f t) = (label? p t).map f := by
  rw [label?, label?, at?_map, Option.map_map, Option.map_map]
  congr 1
  exact funext fun s ↦ label_map f s

end

theorem map_map {γ : Type} (g : β → γ) (f : α → β) (t : Rose α) :
    map g (map f t) = map (g ∘ f) t := by
  induction t using Rose.induct with
  | node a cs ih =>
    rw [map_eq, map_eq (g ∘ f), label_map, children_map, List.map_map]
    congr 1
    exact map_congr_left ih

theorem flatten_map (f : α → β) (t : Rose α) : (map f t).flatten = t.flatten.map f := by
  induction t using Rose.induct with
  | node a cs ih =>
    rw [map_eq, flatten_eq, flatten_eq (node a cs), flattenAll_eq, flattenAll_eq, label_node,
      label_node, children_node, children_node, map_cons, map_flatMap, flatMap_map]
    congr 1
    exact flatMap_congr ih

section

variable {f : α → α → α} {g : α → β} (hg : ∀ a b, g (f a b) = g b) (parent : α) (t : Rose α)
include hg parent t

theorem map_descend : map g (descend f parent t) = map g t := by
  induction t using Rose.induct generalizing parent with
  | node a cs ih =>
    rw [descend, map_eq, map_eq g (node a cs), label_node, label_node, hg, children_node,
      children_node, descendAll_eq, List.map_map]
    congr 1
    exact map_congr_left fun c hc ↦ ih c hc _

theorem map_flatten_descend : (descend f parent t).flatten.map g = t.flatten.map g := by
  rw [← flatten_map, map_descend hg, flatten_map]

end

section

variable {f : α → β} {g : α → α} (h : ∀ a, f (g a) = f a) (p : List ℕ) (t : Rose α)
include h p t

theorem map_mapAt : map f (mapAt g p t) = map f t := by
  induction p generalizing t with
  | nil => rw [mapAt, modifyAt, map_eq, map_eq f t, label_node, h, children_node]
  | cons i p ih =>
    rw [mapAt, modifyAt, map_eq, map_eq f t, label_node, children_node]
    congr 1
    refine ext_getElem? fun j ↦ ?_
    rw [getElem?_map, getElem?_map, getElem?_modify]
    cases t.children[j]? with
    | none => rfl
    | some c =>
      rcases eq_or_ne i j with hij | hij
      · simpa [hij, mapAt] using ih c
      · simp [hij]

theorem map_along : map f (along g p t) = map f t := by
  induction p using reverseRecOn generalizing t with
  | nil => rw [along_nil, map_mapAt h]
  | append_singleton p i ih => rw [along_concat, ih, map_mapAt h]

end

/-- A property of all subtrees passes to a tree that is the same up to `f`, if it is a
property of the labels of a tree's root and children up to `f`. -/
theorem forall_congr_map {P : Rose α → Prop} {f : α → β}
    (hP : ∀ s s' : Rose α, map f s = map f s' → P s → P s') {t t' : Rose α}
    (h : map f t = map f t') (ht : Forall P t) : Forall P t' := by
  intro p s' hs'
  have hat := at?_map f p t
  rw [h, at?_map, hs', map_some] at hat
  obtain ⟨s, hs, hmap⟩ := map_eq_some_iff.mp hat.symm
  exact hP s s' hmap (ht p s hs)

/-! ### Addresses after a subtree is taken out -/

/-- Where the node at an address was before the subtree at position `i` below `p` was taken
out. -/
def skip (p : List ℕ) (i : ℕ) (q : List ℕ) : List ℕ :=
  if p <+: q then
    match q.drop p.length with
    | [] => q
    | j :: r => p ++ (if j < i then j else j + 1) :: r
  else q

theorem label?_prune (p : List ℕ) (i : ℕ) (t : Rose α) (q : List ℕ) :
    label? q (prune p i t) = label? (skip p i q) t := by
  rw [skip]
  split
  · rename_i hq
    obtain ⟨r, rfl⟩ := hq
    rw [drop_left, prune, label?, at?_append_modifyAt]
    cases r with
    | nil =>
      simp only [append_nil, label?]
      cases at? p t <;> rfl
    | cons j r =>
      simp only [label?_append, at?_cons, children_node, getElem?_eraseIdx]
      cases at? p t with
      | none => rfl
      | some s =>
        split <;> rfl
  · rename_i hq
    exact label?_modifyAt_of_not_isPrefix _ _ hq

/-! ### Heights -/

theorem height_le_heights {c : Rose α} {cs : List (Rose α)} (h : c ∈ cs) :
    c.height ≤ heights cs := by
  induction cs with
  | nil => cases h
  | cons d cs ih =>
    rcases mem_cons.mp h with rfl | h
    · exact le_max_left _ _
    · exact (ih h).trans (le_max_right _ _)

theorem height_lt {t c : Rose α} (h : c ∈ t.children) : c.height < t.height := by
  cases t
  exact Nat.lt_succ_of_le (height_le_heights h)

theorem height_le_of_at? {p : List ℕ} {t s : Rose α} (h : at? p t = some s) :
    s.height ≤ t.height := by
  induction p generalizing t with
  | nil =>
    cases h
    exact le_rfl
  | cons i p ih =>
    obtain ⟨c, hc, hs⟩ := bind_eq_some_iff.mp h
    exact (ih hs).trans (height_lt (mem_of_getElem? hc)).le

theorem heights_map {f : α → β} {cs : List (Rose α)}
    (h : ∀ c ∈ cs, (map f c).height = c.height) : heights (cs.map (map f)) = heights cs := by
  induction cs with
  | nil => rfl
  | cons c cs ih =>
    rw [map_cons, heights, heights, h c (by simp), ih fun d hd ↦ h d (by simp [hd])]

theorem height_map (f : α → β) (t : Rose α) : (map f t).height = t.height := by
  induction t using Rose.induct with
  | node a cs ih => rw [map_eq, children_node, height, height, heights_map ih]

end Rose

end Xzero
