import Mathlib.Data.List.Infix

/-!
# Logs that agree up to an index

Two lists *agree up to* index `k` if they have a common prefix that reaches past it. For logs that
are only ever appended to this is the right notion of "the same up to here": **it is kept when
either side grows** (`AgreeTo.mono`), it is transitive at one index, and it is inherited by every
lower index.
-/

variable {α : Type*} {l l' : List α} {k : ℕ} {a : α}

theorem List.IsPrefix.getElem?_of_some (h : l <+: l') (ha : l[k]? = some a) : l'[k]? = some a := by
  obtain ⟨hlt, rfl⟩ := getElem?_eq_some_iff.1 ha
  exact prefix_iff_getElem?.1 h k hlt

theorem List.IsPrefix.getElem?_of_lt (h : l <+: l')
    (ha : l'[k]? = some a) (hk : k < l.length) : l[k]? = some a := by
  rw [getElem?_eq_getElem hk, ← prefix_iff_getElem?.1 h k hk, ha]

/-- The lists have a common prefix that ends with index `k`. -/
def AgreeTo {α : Type*} (l l' : List α) (k : ℕ) : Prop :=
  ∃ p, p.length = k + 1 ∧ p <+: l ∧ p <+: l'

namespace AgreeTo

open List

variable {α : Type*} {l l' l'' m m' : List α} {j k : ℕ}

theorem of_isPrefix (h : l <+: l') (hk : k < l.length) : AgreeTo l l' k := by
  refine ⟨l.take (k + 1), ?_, l.take_prefix _, (l.take_prefix _).trans h⟩
  rw [length_take]
  omega

theorem refl (hk : k < l.length) : AgreeTo l l k := of_isPrefix l.prefix_refl hk

section

variable (h : AgreeTo l l' k)
include h

theorem symm : AgreeTo l' l k := by
  obtain ⟨p, hlen, hl, hl'⟩ := h
  exact ⟨p, hlen, hl', hl⟩

theorem trans (h' : AgreeTo l' l'' k) : AgreeTo l l'' k := by
  obtain ⟨p, hlen, hl, hl'⟩ := h
  obtain ⟨q, hlen', hq, hq'⟩ := h'
  -- Both common prefixes are prefixes of the list in the middle, of the same length.
  have hpq : p <+: q := prefix_of_prefix_length_le hl' hq (by omega)
  obtain rfl := hpq.eq_of_length (by omega)
  exact ⟨p, hlen, hl, hq'⟩

/-- **Agreement outlives appends.** -/
theorem mono (hl : l <+: m) (hl' : l' <+: m') : AgreeTo m m' k := by
  obtain ⟨p, hlen, hp, hp'⟩ := h
  exact ⟨p, hlen, hp.trans hl, hp'.trans hl'⟩

theorem of_le (hj : j ≤ k) : AgreeTo l l' j := by
  obtain ⟨p, hlen, hl, hl'⟩ := h
  refine ⟨p.take (j + 1), ?_, (p.take_prefix _).trans hl, (p.take_prefix _).trans hl'⟩
  rw [length_take]
  omega

theorem lt_length : k < l.length := by
  obtain ⟨p, hlen, hl, -⟩ := h
  have hle := hl.length_le
  omega

theorem getElem?_eq (hj : j ≤ k) : l[j]? = l'[j]? := by
  obtain ⟨p, hlen, hl, hl'⟩ := h
  have hp : j < p.length := by omega
  rw [prefix_iff_getElem?.1 hl j hp, prefix_iff_getElem?.1 hl' j hp]

theorem prefix_of_length (hlen : l.length = k + 1) : l <+: l' := by
  obtain ⟨p, hp, hl, hl'⟩ := h
  obtain rfl := hl.eq_of_length (by omega)
  exact hl'

end

/-! ### Copying a run of elements -/

section

variable {run : List α}

/-- If `l` agrees with `m` up to `k` and wherever it overlaps with the run of `m` after `k`, and
does not reach past that run, it is a prefix of `m`. -/
theorem isPrefix_of_overlap (h : AgreeTo l m k)
    (hover : ∀ j < run.length, k + 1 + j < l.length → AgreeTo l m (k + 1 + j))
    (hle : l.length ≤ k + 1 + run.length) : l <+: m := by
  have hk := h.lt_length
  rcases Nat.eq_or_lt_of_le hk with heq | hlt
  · exact h.prefix_of_length heq.symm
  · obtain ⟨j, hj⟩ := Nat.exists_eq_add_of_lt hlt
    exact (hover j (by omega) (by omega)).prefix_of_length (by omega)

end

end AgreeTo

/-- Appending what is missing of a run of `m` to a prefix of `m` gives a prefix of `m`. -/
theorem List.append_drop_isPrefix {m run : List α} (hl : l <+: m)
    (hrun : run <+: m.drop (k + 1)) (hk : k < l.length) :
    l ++ run.drop (l.length - (k + 1)) <+: m := by
  have hdrop : run.drop (l.length - (k + 1)) <+: m.drop l.length := by
    have h := hrun.drop (l.length - (k + 1))
    rwa [drop_drop, Nat.add_sub_cancel' hk] at h
  obtain ⟨t, rfl⟩ := hl
  rw [drop_left] at hdrop
  exact (prefix_append_right_inj l).2 hdrop
