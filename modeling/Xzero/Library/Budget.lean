import Mathlib.Algebra.BigOperators.Group.List.Basic
import Mathlib.Algebra.Ring.Nat

/-!
# What fits into a budget

Of a list whose elements have a weight, `Budget.fit` keeps as much from the front as a budget
allows. **It is the longest part of the front that fits** (`Budget.prefix_fit_iff`), and taking
elements from the back as long as there is too much leads to it (`Budget.fit_concat`).
-/

namespace Budget

open List

variable {α : Type*} (w : α → ℕ)

def total (l : List α) : ℕ := (l.map w).sum

/-- What fits into a budget, from the front. -/
def fit (m : ℕ) : List α → List α
  | [] => []
  | a :: l => if w a ≤ m then a :: fit (m - w a) l else []

variable {w} {m : ℕ} {l l' : List α} {a : α}

@[simp] theorem total_nil : total w [] = 0 := rfl

@[simp] theorem total_cons : total w (a :: l) = w a + total w l := rfl

@[simp] theorem total_append : total w (l ++ l') = total w l + total w l' := by
  rw [total, map_append, sum_append]
  rfl

theorem total_fit_le : total w (fit w m l) ≤ m := by
  induction l generalizing m with
  | nil => exact Nat.zero_le m
  | cons a l ih =>
    rw [fit]
    split
    · next hle =>
      have := ih (m := m - w a)
      rw [total_cons]
      omega
    · exact Nat.zero_le m

/-- **What fits is the longest part of the front that is not too heavy.** -/
theorem prefix_fit_iff : l' <+: fit w m l ↔ l' <+: l ∧ total w l' ≤ m := by
  induction l generalizing m l' with
  | nil =>
    refine ⟨fun h ↦ ⟨h, ?_⟩, fun h ↦ h.1⟩
    rw [prefix_nil.1 h]
    exact Nat.zero_le m
  | cons a l ih =>
    rcases l' with - | ⟨b, l'⟩
    · exact ⟨fun _ ↦ ⟨ nil_prefix, Nat.zero_le m⟩, fun _ ↦ nil_prefix⟩
    · rw [fit]
      split
      · next hle =>
        rw [cons_prefix_cons, cons_prefix_cons, ih, total_cons, and_assoc]
        refine and_congr_right fun heq ↦ and_congr_right fun _ ↦ ?_
        rw [heq]
        omega
      · next hlt =>
        refine iff_of_false (fun h ↦ ?_) fun h ↦ ?_
        · cases prefix_nil.1 h
        · obtain ⟨hfront, htotal⟩ := h
          rw [(cons_prefix_cons.1 hfront).1, total_cons] at htotal
          omega

theorem fit_isPrefix : fit w m l <+: l := (prefix_fit_iff.1 prefix_rfl).1

theorem fit_eq_self (h : total w l ≤ m) : fit w m l = l :=
  fit_isPrefix.eq_of_length_le (prefix_fit_iff.2 ⟨prefix_rfl, h⟩).length_le

theorem fit_concat (h : m < total w (l ++ [a])) : fit w m (l ++ [a]) = fit w m l := by
  have hfront : fit w m (l ++ [a]) <+: l := by
    refine (prefix_concat_iff.1 fit_isPrefix).resolve_left fun heq ↦ ?_
    have htotal : total w (fit w m (l ++ [a])) ≤ m := total_fit_le
    rw [heq] at htotal
    exact Nat.not_le.2 h htotal
  refine IsPrefix.eq_of_length_le (prefix_fit_iff.2 ⟨hfront, total_fit_le⟩) ?_
  have hle : fit w m l <+: fit w m (l ++ [a]) :=
    prefix_fit_iff.2 ⟨fit_isPrefix.trans (prefix_append _ _), total_fit_le⟩
  exact hle.length_le

end Budget
