import Mathlib.Data.Finset.Card

/-!
# Majorities

A property holds of a *majority* of a finite set if more than half of its elements have it. That is
all a quorum is needed for: any two majorities have an element in common (`Majority.exists_and`),
so two facts that are each established by a quorum meet in one witness.

`Majority` is stated with an explicit set of voters, which is how quorums arise in proofs — one
voter at a time. `majority_toFinset_iff` is the form in which it is evaluated.
-/

/-- More than half of `s` have the property `p`. -/
def Majority {α : Type*} (s : Finset α) (p : α → Prop) : Prop :=
  ∃ A ⊆ s, s.card < 2 * A.card ∧ ∀ a ∈ A, p a

namespace Majority

variable {α : Type*} {s : Finset α} {p q : α → Prop}

theorem mono (h : Majority s p) (hpq : ∀ a ∈ s, p a → q a) : Majority s q := by
  obtain ⟨A, hA, hcard, hp⟩ := h
  exact ⟨A, hA, hcard, fun a ha ↦ hpq a (hA ha) (hp a ha)⟩

/-- **Two majorities meet.** -/
theorem exists_and [DecidableEq α] (hp : Majority s p) (hq : Majority s q) :
    ∃ a ∈ s, p a ∧ q a := by
  obtain ⟨A, hA, hcardA, hpA⟩ := hp
  obtain ⟨B, hB, hcardB, hqB⟩ := hq
  obtain ⟨a, ha⟩ := Finset.inter_nonempty_of_card_lt_card_add_card hA hB (by omega)
  obtain ⟨haA, haB⟩ := Finset.mem_inter.1 ha
  exact ⟨a, hA haA, hpA a haA, hqB a haB⟩

end Majority

theorem majority_toFinset_iff {α : Type*} [DecidableEq α] {l : List α} (hl : l.Nodup)
    {p : α → Prop} [DecidablePred p] :
    Majority l.toFinset p ↔ l.length < 2 * l.countP p := by
  have hcount : (l.toFinset.filter p).card = l.countP p := by
    rw [List.countP_eq_length_filter, ← List.toFinset_card_of_nodup (hl.filter _)]
    congr 1
    ext a
    simp
  constructor
  · rintro ⟨A, hA, hcard, hp⟩
    have hle : A.card ≤ (l.toFinset.filter p).card :=
      Finset.card_le_card fun a ha ↦ Finset.mem_filter.2 ⟨hA ha, hp a ha⟩
    rw [List.toFinset_card_of_nodup hl] at hcard
    omega
  · intro hcard
    refine ⟨l.toFinset.filter p, Finset.filter_subset _ _, ?_, fun a ha ↦ ?_⟩
    · rwa [hcount, List.toFinset_card_of_nodup hl]
    · exact (Finset.mem_filter.1 ha).2
