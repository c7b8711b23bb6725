import Mathlib.Data.Nat.Bitwise

/-!
# Packing numbers into words

Fields of a word that do not overlap: joining them with bitwise or is adding them up, which is the
form in which linear arithmetic takes them apart again.
-/

namespace Nat

/-- **A field above all bits of the rest is added.** -/
theorem shiftLeft_or_eq_add {a k : ℕ} (h : a < 2 ^ k) (b : ℕ) : b <<< k ||| a = b * 2 ^ k + a := by
  rw [← Nat.shiftLeft_add_eq_or_of_lt h, Nat.shiftLeft_eq]

theorem or_shiftLeft_eq_add {a k : ℕ} (h : a < 2 ^ k) (b : ℕ) : a ||| b <<< k = a + b * 2 ^ k := by
  rw [Nat.or_comm, shiftLeft_or_eq_add h, Nat.add_comm]

end Nat
