import Mathlib.Data.Multiset.Replicate
import Xzero.Library.Transition
import Xzero.TokenShaper.Tokens

/-!
# The tokens of a shaper are conserved

A shaper does not record which node a token was taken from. The `Ledger` does: next to the
tree it keeps the bag of the tokens that are out, each named by the node it was taken from.
In every run that only puts back what is out, and in which the counters do not overflow, the
count of a node is the number of tokens out through it or through a descendant, `get` changes
nothing when it returns nothing, and `put` meets its assertions
(**`TokenShaper.conserved_of_reach`**). The bound is needed: the sums of `get` are taken modulo
`2 ^ 64`, and a request of `2 ^ 64 - 1` tokens on top of one that is out is granted and sets
the counter back to zero (**`TokenShaper.not_conserved`**).
-/

namespace Xzero.TokenShaper

open List Multiset Option Rose Node

variable {T : Type} {n : ℕ}

/-! ### `put` -/

theorem sum_children {t v : Tree T} {w : Address} {f : Node T → ℕ} {g : ℕ → ℕ}
    (hv : t.at? w = some v) (hf : ∀ j x, t.label? (w ++ [j]) = some x → f x = g j) :
    (v.children.map fun c ↦ f c.label).sum = ((List.range v.children.length).map g).sum := by
  congr 1
  refine List.ext_getElem (by simp) fun j hj _ ↦ ?_
  rw [length_map] at hj
  rw [getElem_map, getElem_map, getElem_range]
  refine hf j _ ?_
  rw [label?_append, hv]
  simp [label?_cons, getElem?_eq_getElem hj]

section Put

variable {c : Address → ℕ}
  (hc : ∀ w m, ((List.range m).map fun j ↦ c (w ++ [j])).sum ≤ c w)

include hc

/-- The assertions hold at a node whose count is `n` more than `c` says, where those of its
children are as `c` says. -/
theorem refundable_of_count {t v : Tree T} {w : Address} (hv : t.at? w = some v)
    (hw : v.label.actualRate = c w + n)
    (hcs : ∀ j x, t.label? (w ++ [j]) = some x → x.actualRate = c (w ++ [j])) :
    Refundable n v := by
  refine ⟨by omega, ?_⟩
  calc actualChildRate v
      ≤ (v.children.map fun u ↦ u.label.actualRate).sum := sumOver_le _ _
    _ = ((List.range v.children.length).map fun j ↦ c (w ++ [j])).sum := sum_children hv hcs
    _ ≤ c w := hc w _
    _ = v.label.actualRate - n := by omega

/-- `put` on the way up from a node: every node on the way is still to be lowered to the
count that `c` says, all others have it. -/
theorem putUp_eq {way : List ℕ} {t : Tree T} (hway : (t.at? way.reverse).isSome)
    (ht : ∀ q x, t.label? q = some x → x.actualRate = c q + if q <+: way.reverse then n else 0) :
    putUp n way t = some (t.along (decrement n) way.reverse) := by
  induction way generalizing t with
  | nil =>
    have hr : Refundable n t := by
      refine refundable_of_count hc (at?_nil t) ?_ fun j x hx ↦ ?_
      · simpa using ht [] t.label rfl
      · simpa using ht [j] x hx
    rw [putUp, reverse_nil, at?_nil]
    dsimp only
    rw [if_pos hr, along_nil]
  | cons i up ih =>
    obtain ⟨v, hv⟩ := isSome_iff_exists.mp hway
    have hr : Refundable n v := by
      refine refundable_of_count hc hv ?_ fun j x hx ↦ ?_
      · simpa using ht _ _ (label?_of_at? hv)
      · simpa using ht _ x hx
    rw [putUp, hv]
    dsimp only
    rw [if_pos hr, ih, reverse_cons, along_concat]
    · rw [← isSome_label?, label?_mapAt, isSome_map, isSome_label?]
      exact isSome_at?_of_isPrefix (by simp) hway
    · intro q x hx
      rw [label?_mapAt, map_eq_some_iff] at hx
      obtain ⟨y, hy, rfl⟩ := hx
      have hcount := ht q y hy
      simp only [reverse_cons, prefix_concat_iff] at hcount
      by_cases hq : q = up.reverse ++ [i]
      · have hup : ¬ up.reverse ++ [i] <+: up.reverse := fun h ↦ by simpa using h.length_le
        simp [hq, decrement, hcount, hup]
      · simp [hq] at hcount ⊢
        exact hcount

end Put

theorem put_of_missing {t : Tree T} {p : Address} (hp : ¬ (t.at? p).isSome) :
    put p n t = some t := by
  rw [not_isSome_iff_eq_none] at hp
  rw [put, putUp.eq_def, reverse_reverse, hp]

theorem refundable_of_put {t t' v : Tree T} {p : Address} (hv : t.at? p = some v)
    (h : put p n t = some t') : Refundable n v := by
  by_contra hr
  rw [put, putUp.eq_def, reverse_reverse, hv] at h
  simp [hr] at h

/-! ### Tokens that are out -/

/-- The number of tokens out through a node or one of its descendants. -/
def heldThrough (held : Multiset Address) (q : Address) : ℕ := held.countP (q <+: ·)

theorem heldThrough_replicate (n : ℕ) (p q : Address) :
    heldThrough (Multiset.replicate n p) q = if q <+: p then n else 0 := by
  rw [heldThrough, ← coe_replicate, coe_countP, countP_replicate]
  simp

theorem heldThrough_add (a b : Multiset Address) (q : Address) :
    heldThrough (a + b) q = heldThrough a q + heldThrough b q :=
  countP_add _ _ _

theorem heldThrough_sub {held : Multiset Address} {p : Address} (hn : n ≤ held.count p)
    (q : Address) : heldThrough held q =
      heldThrough (held - Multiset.replicate n p) q + if q <+: p then n else 0 := by
  rw [← heldThrough_replicate, ← heldThrough_add,
    Multiset.sub_add_cancel (Multiset.le_count_iff_replicate_le.mp hn)]

theorem heldThrough_le_card (held : Multiset Address) (q : Address) :
    heldThrough held q ≤ held.card :=
  countP_le_card _ _

theorem sum_range_eq (m : ℕ) (k : Option ℕ) :
    ((List.range m).map fun j ↦ if k = some j then 1 else 0).sum =
      if ∃ j < m, k = some j then 1 else 0 := by
  induction m with
  | zero => simp
  | succ m ih =>
    rw [List.range_succ, map_append, sum_append, ih]
    cases k with
    | none => simp
    | some k =>
      simp only [some.injEq, exists_eq_right', List.map_cons, List.map_nil, List.sum_singleton]
      split <;> split <;> split <;> omega

/-- A node lies below at most one of the children of another, and then it lies below that
other as well. -/
theorem sum_below_le (w b : Address) (m : ℕ) :
    ((List.range m).map fun j ↦ if w ++ [j] <+: b then 1 else 0).sum ≤
      if w <+: b then 1 else 0 := by
  by_cases hw : w <+: b
  · obtain ⟨r, rfl⟩ := hw
    have hj (j : ℕ) : w ++ [j] <+: w ++ r ↔ r.head? = some j := by
      rw [prefix_append_right_inj]
      cases r <;> simp [eq_comm]
    simp only [hj, prefix_append, if_true, sum_range_eq]
    split <;> omega
  · have hj (j : ℕ) : ¬ w ++ [j] <+: b := fun h ↦ hw ((prefix_append _ _).trans h)
    simp [hj]

theorem sum_heldThrough_le (held : Multiset Address) (w : Address) (m : ℕ) :
    ((List.range m).map fun j ↦ heldThrough held (w ++ [j])).sum ≤ heldThrough held w := by
  induction held using Multiset.induction with
  | empty => simp [heldThrough]
  | cons b held ih =>
    simp only [heldThrough, Multiset.countP_cons, List.sum_map_add] at ih ⊢
    exact Nat.add_le_add ih (sum_below_le w b m)

/-! ### The ledger -/

/-- A shaper and the tokens that are out, by the node they were taken from. -/
structure Ledger (T : Type) where
  tree : Tree T
  held : Multiset Address

/-- A call, and what it does to the tokens that are out. -/
def Ledger.step (s : Ledger T) (call : Call T) : Option (Ledger T) :=
  match call, TokenShaper.step s.tree call with
  | .get p _, some (.tokens m, t) => some ⟨t, s.held + Multiset.replicate m p⟩
  | .put p n, some (_, t) => some ⟨t, s.held - Multiset.replicate n p⟩
  | _, some (_, t) => some { s with tree := t }
  | _, none => none

/-- A shaper that no token is out of, and the calls on it. -/
def ledgers (t : Tree T) : TransitionSystem (Ledger T) (Call T) where
  init := ⟨t, 0⟩
  step := Ledger.step

/-- The calls that set up the tree, take tokens, and put back tokens that were taken from the
same node. -/
def Ledger.Fair (s : Ledger T) : Call T → Prop
  | .createChild _ _ _ _ => True
  | .get _ _ => True
  | .put p n => n ≤ s.held.count p
  | _ => False

/-- No counter can overflow: all tokens that are out and those asked for fit a `size_t`. -/
def Ledger.Fits (s : Ledger T) : Call T → Prop
  | .get _ n => s.held.card + n < 2 ^ 64
  | _ => True

/-- What is conserved. -/
structure Ledger.Conserved (s : Ledger T) : Prop where
  /-- The count of a node is the number of tokens out through it or a descendant. -/
  count : ∀ q x, s.tree.label? q = some x → x.actualRate = heldThrough s.held q
  /-- A `get` that returns nothing changes no node. -/
  get : ∀ p n, (get p n s.tree).1 = 0 → (get p n s.tree).2 = s.tree
  /-- The assertions of `put` hold for tokens that are out. -/
  put : ∀ p n, n ≤ s.held.count p → (put p n s.tree).isSome

/-! ### Conservation -/

/-- The invariant: the counts agree with what is out, which is out of nodes of the tree and
fits a counter. -/
structure Ledger.Inv (s : Ledger T) : Prop where
  count : ∀ q x, s.tree.label? q = some x → x.actualRate = heldThrough s.held q
  mem : ∀ b ∈ s.held, (s.tree.at? b).isSome
  card : s.held.card < 2 ^ 64

namespace Ledger.Inv

variable {s : Ledger T}

theorem counts (h : s.Inv) : Counts s.tree := by
  intro q x hx
  rw [h.count q x hx]
  exact (heldThrough_le_card s.held q).trans_lt h.card

theorem put_eq (h : s.Inv) {p : Address} (hn : n ≤ s.held.count p) (hp : (s.tree.at? p).isSome) :
    put p n s.tree = some (s.tree.along (.decrement n) p) := by
  have hput : putUp n p.reverse s.tree = some (s.tree.along (.decrement n) p.reverse.reverse) := by
    refine putUp_eq (sum_heldThrough_le (s.held - Multiset.replicate n p))
      (by rwa [reverse_reverse]) fun q x hx ↦ ?_
    simp only [reverse_reverse]
    rw [h.count q x hx, heldThrough_sub hn q]
  rwa [reverse_reverse] at hput

theorem conserved (h : s.Inv) : s.Conserved where
  count := h.count
  get _ _ := get_eq_self h.counts
  put p n hn := by
    by_cases hp : (s.tree.at? p).isSome
    · rw [h.put_eq hn hp]
      rfl
    · rw [put_of_missing hp]
      rfl

end Ledger.Inv

section Steps

variable {s s' : Ledger T}

theorem Ledger.inv_init {t : Tree T} (ht : ∀ q x, t.label? q = some x → x.actualRate = 0) :
    (ledgers t).init.Inv where
  count q x hx := (ht q x hx).trans (countP_zero _).symm
  mem b hb := absurd hb (notMem_zero b)
  card := by simp [ledgers]

theorem actualRate_createRoot (capacity : ℕ) (q : Address) (x : Node T)
    (hx : (createRoot capacity : Tree T).label? q = some x) : x.actualRate = 0 := by
  cases q with
  | nil => cases hx; rfl
  | cons i q => simp [createRoot, label?_cons] at hx

theorem Ledger.Inv.createChild (h : s.Inv) (p : Address) (name : String) (rate ceil : ℚ) :
    ({ s with tree := (createChild p name rate ceil s.tree).2 } : Ledger T).Inv := by
  obtain ⟨v, hv, -, -, -, ht⟩ | ⟨e, -, ht⟩ := createChild_cases p name rate ceil s.tree
  · have hat (q : Address) := label?_graft hv (v.label.child name rate ceil) q
    have hfree : s.tree.at? (p ++ [v.children.length]) = none := by
      rw [at?_append, hv]
      simp [at?_cons]
    rw [ht]
    refine ⟨fun q x hx ↦ ?_, fun b hb ↦ ?_, h.card⟩
    · rw [hat] at hx
      split at hx
      · -- no token is out of a node below the new one, or it would be in the tree already
        rename_i hq
        cases hx
        refine (Multiset.countP_eq_zero.mpr fun b hb hqb ↦ ?_).symm
        have hex := isSome_at?_of_isPrefix hqb (h.mem b hb)
        rw [hq, hfree] at hex
        cases hex
      · exact h.count q x hx
    · rw [← isSome_label?, hat]
      split
      · rfl
      · rw [isSome_label?]
        exact h.mem b hb
  · rwa [ht]

theorem Ledger.Inv.congr (h : s.Inv) {t : Tree T}
    (ht : t.map actualRate = s.tree.map actualRate) : (⟨t, s.held⟩ : Ledger T).Inv := by
  have hlabel (q : Address) : (t.label? q).map actualRate = (s.tree.label? q).map actualRate := by
    rw [← label?_map, ht, label?_map]
  refine ⟨fun q x hx ↦ ?_, fun b hb ↦ ?_, h.card⟩
  · have hcount := hlabel q
    rw [hx, map_some] at hcount
    obtain ⟨y, hy, hxy⟩ := map_eq_some_iff.mp hcount.symm
    rw [← hxy]
    exact h.count q y hy
  · rw [← isSome_label?, ← isSome_map, hlabel,
      isSome_map, isSome_label?]
    exact h.mem b hb

theorem Ledger.Inv.get (h : s.Inv) {p : Address} (hn : s.held.card + n < 2 ^ 64) :
    (⟨(get p n s.tree).2, s.held + Multiset.replicate (get p n s.tree).1 p⟩ : Ledger T).Inv := by
  obtain ⟨-, hg, ht⟩ | ht := get_cases h.counts p n
  · rw [ht]
    refine ⟨fun q x hx ↦ ?_, fun b hb ↦ ?_, by simpa using hn⟩
    · rw [label?_along, map_eq_some_iff] at hx
      obtain ⟨y, hy, rfl⟩ := hx
      have hle := heldThrough_le_card s.held q
      rw [heldThrough_add, heldThrough_replicate, ← h.count q y hy] at *
      split
      · rw [increment, add, Nat.mod_eq_of_lt (by omega)]
      · rfl
    · rw [← isSome_label?, label?_along, isSome_map, isSome_label?]
      rcases Multiset.mem_add.mp hb with hb | hb
      · exact h.mem b hb
      · rw [Multiset.eq_of_mem_replicate hb]
        exact hg.isSome_at?
  · rw [ht]
    simpa using h

theorem Ledger.Inv.put (h : s.Inv) {p : Address} {t : Tree T} (hn : n ≤ s.held.count p)
    (ht : put p n s.tree = some t) :
    (⟨t, s.held - Multiset.replicate n p⟩ : Ledger T).Inv := by
  have hsub : s.held - Multiset.replicate n p ≤ s.held := Multiset.sub_le_self _ _
  by_cases hp : (s.tree.at? p).isSome
  · rw [h.put_eq hn hp] at ht
    cases ht
    refine ⟨fun q x hx ↦ ?_, fun b hb ↦ ?_, (card_le_card hsub).trans_lt h.card⟩
    · rw [label?_along, map_eq_some_iff] at hx
      obtain ⟨y, hy, rfl⟩ := hx
      have hadd := heldThrough_sub hn q
      rw [← h.count q y hy] at hadd
      split
      · rw [if_pos ‹_›] at hadd
        rw [decrement, hadd, Nat.add_sub_cancel]
      · rw [if_neg ‹_›] at hadd
        exact hadd
    · rw [← isSome_label?, label?_along, isSome_map, isSome_label?]
      exact h.mem b (mem_of_le hsub hb)
  · -- nothing is out of a node that does not exist
    have hzero : n = 0 := by
      by_contra hpos
      exact hp (h.mem p (count_pos.mp (by omega)))
    rw [put_of_missing hp] at ht
    cases ht
    simpa [hzero] using h

theorem Ledger.Inv.step (h : s.Inv) {call : Call T} (hfair : s.Fair call) (hfits : s.Fits call)
    (hs : s.step call = some s') : s'.Inv := by
  cases call with
  | createChild p name rate ceil =>
    cases hs
    exact h.createChild p name rate ceil
  | get p n =>
    cases hs
    exact h.get hfits
  | put p n =>
    simp only [Ledger.step, TokenShaper.step] at hs
    cases ht : TokenShaper.put p n s.tree <;> rw [ht] at hs <;> cases hs
    exact h.put hfair ht
  | _ => exact hfair.elim

/-- **Conservation.** As long as the tokens that are out and those asked for fit a counter,
the counts are right, a `get` that returns nothing changes nothing and `put` does not fail. -/
theorem conserved_of_reach {capacity : ℕ}
    (h : (ledgers (createRoot capacity)).Reach (fun s call ↦ s.Fair call ∧ s.Fits call) s) :
    s.Conserved := by
  refine Ledger.Inv.conserved ?_
  induction h with
  | init => exact Ledger.inv_init (actualRate_createRoot capacity)
  | step _ hok hs ih => exact ih.step hok.1 hok.2 hs

end Steps

/-- The state after three tokens are taken from the child of a shaper and one is put back. -/
theorem conserved_after_put :
    (⟨vipTree 2 2, 0 + Multiset.replicate 3 [0] - Multiset.replicate 1 [0]⟩ :
      Ledger Unit).Conserved := by
  have hinit : (ledgers (createRoot 10)).Reach (fun s call ↦ s.Fair call ∧ s.Fits call)
      (⟨vipTree 0 0, 0⟩ : Ledger Unit) := by
    refine .step (a := .createChild [] "vip" (1 / 2) 1) .init ⟨trivial, trivial⟩ ?_
    simp only [ledgers, Ledger.step, step, createChild_vip, Prod.map, id]
  have hget : (ledgers (createRoot 10)).Reach (fun s call ↦ s.Fair call ∧ s.Fits call)
      (⟨vipTree 3 3, 0 + Multiset.replicate 3 [0]⟩ : Ledger Unit) :=
    hinit.step (a := .get [0] 3) ⟨trivial, by simp [Ledger.Fits]⟩ rfl
  exact conserved_of_reach (hget.step (a := .put [0] 1) ⟨by simp [Ledger.Fair], trivial⟩ rfl)

/-- A request of all but one of the `2 ^ 64` numbers of a counter, on top of one token that is
out, is granted, sets the counter back to zero, and `put` then fails. -/
theorem not_conserved : ¬ ∀ (capacity : ℕ) (s : Ledger Unit),
    (ledgers (createRoot capacity)).Reach (fun s call ↦ s.Fair call) s → s.Conserved := by
  intro h
  have hone : (ledgers (createRoot 1)).Reach (fun s call ↦ s.Fair call)
      (⟨.node ⟨"root", 1, 1, 1, 1, 1, [], 0⟩ [], 0 + Multiset.replicate 1 []⟩ : Ledger Unit) :=
    TransitionSystem.Reach.init.step (a := .get [] 1) trivial rfl
  have hget : TokenShaper.get [] (2 ^ 64 - 1) (.node ⟨"root", 1, 1, 1, 1, 1, [], 0⟩ [] : Tree Unit) =
      (2 ^ 64 - 1, .node ⟨"root", 1, 1, 1, 1, 0, [], 0⟩ []) :=
    get_of_grants (by decide) (Or.inl (by decide))
  have hzero : (ledgers (createRoot 1)).Reach (fun s call ↦ s.Fair call)
      (⟨.node ⟨"root", 1, 1, 1, 1, 0, [], 0⟩ [],
        0 + Multiset.replicate 1 [] + Multiset.replicate (2 ^ 64 - 1) []⟩ : Ledger Unit) := by
    refine hone.step (a := .get [] (2 ^ 64 - 1)) trivial ?_
    simp only [ledgers, Ledger.step, step, hget, Prod.map, id]
  have hmem : [] ∈ 0 + Multiset.replicate 1 ([] : Address) := by decide
  have hput := (h 1 _ hzero).put [] 1
    (Multiset.one_le_count_iff_mem.mpr (Multiset.mem_add.mpr (Or.inl hmem)))
  exact absurd hput (by decide)

end Xzero.TokenShaper
