import Mathlib.Data.List.Infix

/-!
# Escapes

Texts in which a mark and the two letters after it stand for one letter. Which letter they stand
for, if any, is a parameter, so that two readings of the same escapes can be compared.

`unescape` reads a text, and `Reads` says the same as a relation, by letters and escapes: what is
proved about a text that is read goes by induction over it (`unescape_eq_some_iff`).

* `Reads.append`, `Reads.cut`: a text is read in parts, cut where no escape is cut;
* `Reads.map`: readings that agree up to a function on letters agree up to it on texts;
* `Reads.agree`: two readings of a text are equal when they are on each of its escapes.
-/

namespace Escape

open List Option

variable {α : Type*} [DecidableEq α] (mark : α) (pair : α → α → Option α)

/-- The text with each escape replaced by what it stands for. -/
def unescape : List α → Option (List α)
  | [] => some []
  | c :: cs =>
    if c = mark then
      match cs with
      | a :: b :: rest => (pair a b).bind fun x ↦ (unescape rest).map (x :: ·)
      | _ => none
    else (unescape cs).map (c :: ·)

/-- The text is read as the other one. -/
inductive Reads : List α → List α → Prop
  | nil : Reads [] []
  | cons {c : α} {u p : List α} : c ≠ mark → Reads u p → Reads (c :: u) (c :: p)
  | escape {a b x : α} {u p : List α} : pair a b = some x → Reads u p →
      Reads (mark :: a :: b :: u) (x :: p)

variable {mark pair} {pair' : α → α → Option α} {a b c x : α} {u v p q : List α}

theorem unescape_cons (hc : c ≠ mark) :
    unescape mark pair (c :: u) = (unescape mark pair u).map (c :: ·) := by
  rw [unescape.eq_def]
  exact if_neg hc

theorem unescape_mark : unescape mark pair (mark :: u) =
    match u with
    | a :: b :: rest => (pair a b).bind fun x ↦ (unescape mark pair rest).map (x :: ·)
    | _ => none := by
  rw [unescape.eq_def]
  exact if_pos rfl

/-- **Reading as a relation.** -/
theorem unescape_eq_some_iff : unescape mark pair u = some p ↔ Reads mark pair u p := by
  constructor
  · intro h
    induction hn : u.length using Nat.strong_induction_on generalizing u p with
    | _ n ih =>
      rcases u with - | ⟨c, u⟩
      · obtain rfl := some.inj h
        exact .nil
      by_cases hc : c = mark
      · subst hc
        rw [unescape_mark] at h
        split at h
        · next a b rest =>
          obtain ⟨x, hx, h⟩ := bind_eq_some_iff.1 h
          obtain ⟨q, hq, rfl⟩ := map_eq_some_iff.1 h
          refine .escape hx (ih rest.length ?_ hq rfl)
          rw [← hn, length_cons, length_cons, length_cons]
          omega
        · cases h
      · rw [unescape_cons hc] at h
        obtain ⟨q, hq, rfl⟩ := map_eq_some_iff.1 h
        refine .cons hc (ih u.length ?_ hq rfl)
        rw [← hn, length_cons]
        exact Nat.lt_succ_self _
  · intro h
    induction h with
    | nil => rfl
    | cons hc _ ih => rw [unescape_cons hc, ih]; rfl
    | escape hx _ ih =>
      rw [unescape_mark]
      dsimp only
      rw [hx, ih]
      rfl

theorem Reads.unique (hp : Reads mark pair u p) (hq : Reads mark pair u q) : p = q :=
  some.inj ((unescape_eq_some_iff.2 hp).symm.trans (unescape_eq_some_iff.2 hq))

omit [DecidableEq α] in
theorem Reads.append (hu : Reads mark pair u p) (hv : Reads mark pair v q) :
    Reads mark pair (u ++ v) (p ++ q) := by
  induction hu with
  | nil => exact hv
  | cons hc _ ih => exact .cons hc ih
  | escape hx _ ih => exact .escape hx ih

omit [DecidableEq α] in
theorem Reads.cut (hc : ∀ a, pair a c = none ∧ pair c a = none)
    (h : Reads mark pair (u ++ c :: v) p) :
    ∃ p₁ p₂, Reads mark pair u p₁ ∧ Reads mark pair (c :: v) p₂ ∧ p = p₁ ++ p₂ := by
  generalize hw : u ++ c :: v = w at h
  induction h generalizing u with
  | nil => exact absurd hw (by simp)
  | @cons d w p hd hread ih =>
    rcases u with - | ⟨e, u⟩
    · rw [nil_append] at hw
      exact ⟨[], _, .nil, hw ▸ .cons hd hread, rfl⟩
    · simp only [cons_append, cons.injEq] at hw
      obtain ⟨rfl, hw⟩ := hw
      obtain ⟨p₁, p₂, h₁, h₂, rfl⟩ := ih hw
      exact ⟨e :: p₁, p₂, .cons hd h₁, h₂, rfl⟩
  | @escape a b x w p hx hread ih =>
    rcases u with - | ⟨e, - | ⟨f, - | ⟨g, u⟩⟩⟩
    · rw [nil_append] at hw
      exact ⟨[], _, .nil, hw ▸ .escape hx hread, rfl⟩
    · -- the letter would be the first one of the escape
      obtain ⟨-, rfl, -⟩ := hw
      rw [(hc b).2] at hx
      cases hx
    · -- or the second one
      obtain ⟨-, -, rfl, -⟩ := hw
      rw [(hc a).1] at hx
      cases hx
    · simp only [cons_append, cons.injEq] at hw
      obtain ⟨rfl, rfl, rfl, hw⟩ := hw
      obtain ⟨p₁, p₂, h₁, h₂, rfl⟩ := ih hw
      exact ⟨x :: p₁, p₂, .escape hx h₁, h₂, rfl⟩

omit [DecidableEq α] in
theorem Reads.length_eq (hp : Reads mark pair u p) (hq : Reads mark pair' u q) :
    p.length = q.length := by
  induction hp generalizing q with
  | nil =>
    cases hq
    rfl
  | cons hc _ ih =>
    cases hq with
    | cons _ hq => rw [length_cons, length_cons, ih hq]
    | escape => exact absurd rfl hc
  | escape _ _ ih =>
    cases hq with
    | cons hc => exact absurd rfl hc
    | escape _ hq => rw [length_cons, length_cons, ih hq]

omit [DecidableEq α] in
theorem Reads.map {β : Type*} (f : α → β) (hpair : ∀ a b, (pair a b).map f = (pair' a b).map f)
    (h : Reads mark pair u p) : ∃ q, Reads mark pair' u q ∧ p.map f = q.map f := by
  induction h with
  | nil => exact ⟨[], .nil, rfl⟩
  | @cons c u p hc _ ih =>
    obtain ⟨q, hq, heq⟩ := ih
    exact ⟨c :: q, .cons hc hq, by rw [map_cons, map_cons, heq]⟩
  | @escape a b x u p hx _ ih =>
    obtain ⟨q, hq, heq⟩ := ih
    have hy := hpair a b
    rw [hx] at hy
    obtain ⟨y, hy, hxy⟩ := map_eq_some_iff.1 hy.symm
    exact ⟨y :: q, .escape hy hq, by rw [map_cons, map_cons, heq, hxy]⟩

omit [DecidableEq α] in
theorem Reads.of_mark (h : Reads mark pair (mark :: a :: b :: u) p) :
    ∃ x q, pair a b = some x ∧ Reads mark pair u q ∧ p = x :: q := by
  cases h with
  | cons hc => exact absurd rfl hc
  | escape hx hq => exact ⟨_, _, hx, hq, rfl⟩

omit [DecidableEq α] in
theorem Reads.agree (hmark : ∀ a, pair a mark = none ∧ pair mark a = none)
    (hmark' : ∀ a, pair' a mark = none ∧ pair' mark a = none)
    (hp : Reads mark pair u p) (hq : Reads mark pair' u q) :
    p = q ↔ ∀ u₁ a b u₂, u = u₁ ++ mark :: a :: b :: u₂ → pair a b = pair' a b := by
  constructor
  · rintro rfl u₁ a b u₂ rfl
    obtain ⟨p₁, p₂, h₁, h₂, rfl⟩ := hp.cut hmark
    obtain ⟨q₁, q₂, h₁', h₂', heq⟩ := hq.cut hmark'
    obtain ⟨x, r, hx, -, rfl⟩ := h₂.of_mark
    obtain ⟨y, r', hy, -, rfl⟩ := h₂'.of_mark
    obtain ⟨-, heq⟩ := append_inj heq (h₁.length_eq h₁')
    rw [hx, hy, (cons.inj heq).1]
  · intro hagree
    induction hp generalizing q with
    | nil =>
      cases hq
      rfl
    | @cons c u p hc _ ih =>
      cases hq with
      | cons _ hq =>
        rw [ih hq fun u₁ a b u₂ heq ↦ hagree (c :: u₁) a b u₂ (congrArg (c :: ·) heq)]
      | escape => exact absurd rfl hc
    | @escape a b x u p hx _ ih =>
      cases hq with
      | cons hc => exact absurd rfl hc
      | escape hy hq =>
        rw [hagree [] a b u rfl, hy] at hx
        rw [some.inj hx, ih hq fun u₁ c d u₂ heq ↦
          hagree (mark :: a :: b :: u₁) c d u₂ (by rw [heq]; rfl)]

end Escape
