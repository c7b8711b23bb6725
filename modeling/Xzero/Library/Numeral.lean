import Mathlib.Algebra.Ring.Nat

/-!
# Printed numbers

`Nat.toDigits` prints a number from its first digit to its last one. **A reader that takes digit by
digit has the number in the end** (`Numeral.foldl_digits`), in whatever it keeps it.
-/

namespace Numeral

open List

/-- The digits of a number, as bytes. -/
def digits (b n : ℕ) : List UInt8 := (Nat.toDigits b n).map Char.toUInt8

def digit (d : ℕ) : UInt8 := (Nat.digitChar d).toUInt8

variable {b n : ℕ}

theorem digits_of_lt (hn : n < b) : digits b n = [digit n] := by
  rw [digits, Nat.toDigits_of_lt_base hn]
  rfl

theorem digits_of_le (hb : 1 < b) (hn : b ≤ n) : digits b n = digits b (n / b) ++ [digit (n % b)] := by
  rw [digits, Nat.toDigits_of_base_le hb hn, map_append]
  rfl

theorem exists_of_mem_digits (hb : 1 < b) {c : UInt8} (hc : c ∈ digits b n) : ∃ d < b, c = digit d := by
  induction n using Nat.strong_induction_on with
  | _ n ih =>
    rcases lt_or_ge n b with hn | hn
    · rw [digits_of_lt hn, mem_singleton] at hc
      exact ⟨n, hn, hc⟩
    · rw [digits_of_le hb hn, mem_append, mem_singleton] at hc
      rcases hc with hc | hc
      · exact ih _ (Nat.div_lt_self (by omega) hb) hc
      · exact ⟨n % b, Nat.mod_lt _ (by omega), hc⟩

/-- **A reader that takes digit by digit has the number in the end.** -/
theorem foldl_digits {α : Type*} (hb : 1 < b) {f : α → UInt8 → α} (enc : ℕ → α)
    (hf : ∀ m d, d < b → f (enc m) (digit d) = enc (m * b + d)) (n : ℕ) :
    (digits b n).foldl f (enc 0) = enc n := by
  induction n using Nat.strong_induction_on with
  | _ n ih =>
    rcases lt_or_ge n b with hn | hn
    · rw [digits_of_lt hn, foldl_cons, foldl_nil, hf 0 n hn, zero_mul, zero_add]
    · have hlt : n % b < b := Nat.mod_lt _ (by omega)
      rw [digits_of_le hb hn, foldl_append, ih _ (Nat.div_lt_self (by omega) hb), foldl_cons,
        foldl_nil, hf _ _ hlt, Nat.div_add_mod']

theorem digits_ne_nil (hb : 1 < b) : digits b n ≠ [] := by
  rcases lt_or_ge n b with hn | hn
  · rw [digits_of_lt hn]
    exact cons_ne_nil _ _
  · rw [digits_of_le hb hn]
    exact append_ne_nil_of_right_ne_nil _ (cons_ne_nil _ _)

theorem length_digits_le_iff (hb : 1 < b) {k : ℕ} (hk : 0 < k) :
    (digits b n).length ≤ k ↔ n < b ^ k := by
  rw [digits, length_map, Nat.length_toDigits_le_iff hb hk]

end Numeral
