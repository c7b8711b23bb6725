import Mathlib.Data.BitVec

/-!
# Numbers

A `FlowNumber` is an `int64_t` and a register a `uint64_t`; both are the same 64 bits, read as
signed by `BitVec.toInt`. `NumOp` lists the numeric operations that the intermediate representation
and the virtual machine have in common, with what they compute. An operation has no value where C++
gives it none and the hardware traps or may do anything: division by zero, the one quotient that
does not fit, a shift by a distance outside of the word, a power outside of what a register holds.
Signed overflow of the other operations wraps, as two's complement does.
-/

namespace Xzero.Flow

open BitVec

/-- A register's content as a number. -/
abbrev Word := BitVec 64

/-- A `bool` in a register. -/
def Word.ofBool (b : Bool) : Word := if b then 1 else 0

@[simp] theorem Word.ofBool_true : Word.ofBool true = 1 := rfl

@[simp] theorem Word.ofBool_false : Word.ofBool false = 0 := rfl

theorem Word.ofBool_inj {a b : Bool} : Word.ofBool a = Word.ofBool b ↔ a = b := by
  cases a <;> cases b <;> decide

/-- The integer part of `powl(x, y)`, where it is finite. -/
def powl (x y : ℤ) : Option ℤ :=
  if 0 ≤ y then some (x ^ y.toNat)
  else if x = 0 then none
  else if x = 1 then some 1
  else if x = -1 then some (if y % 2 = 0 then 1 else -1)
  else some 0

/-- A floating-point value as a register: what fits neither a signed nor an unsigned word has no
value. -/
def toRegister (p : ℤ) : Option Word :=
  if -2 ^ 63 ≤ p ∧ p < 2 ^ 64 then some (BitVec.ofInt 64 p) else none

/-- The numeric operations with two operands. -/
inductive NumOp
  | add
  | sub
  | mul
  | div
  | rem
  | shl
  | shr
  | pow
  | and
  | or
  | xor
  | cmpEQ
  | cmpNE
  | cmpLE
  | cmpGE
  | cmpLT
  | cmpGT
  deriving DecidableEq, Repr

namespace NumOp

/-- What an operation computes; comparisons yield `1` and `0`. -/
def eval : NumOp → Word → Word → Option Word
  | add, x, y => some (x + y)
  | sub, x, y => some (x - y)
  | mul, x, y => some (x * y)
  | div, x, y => if y = 0 ∨ x = intMin 64 ∧ y = -1 then none else some (x.sdiv y)
  | rem, x, y => if y = 0 ∨ x = intMin 64 ∧ y = -1 then none else some (x.srem y)
  | shl, x, y => if y.toNat < 64 then some (x <<< y.toNat) else none
  | shr, x, y => if y.toNat < 64 then some (x.sshiftRight y.toNat) else none
  | pow, x, y => powl x.toInt y.toInt >>= toRegister
  | and, x, y => some (x &&& y)
  | or, x, y => some (x ||| y)
  | xor, x, y => some (x ^^^ y)
  | cmpEQ, x, y => some (.ofBool (decide (x = y)))
  | cmpNE, x, y => some (.ofBool (decide (x ≠ y)))
  | cmpLE, x, y => some (.ofBool (decide (x.toInt ≤ y.toInt)))
  | cmpGE, x, y => some (.ofBool (decide (x.toInt ≥ y.toInt)))
  | cmpLT, x, y => some (.ofBool (decide (x.toInt < y.toInt)))
  | cmpGT, x, y => some (.ofBool (decide (x.toInt > y.toInt)))

end NumOp

/-! ### Sixteen bits of a word -/

namespace Word

/-- A number as a 16-bit operand of an instruction, read back without its sign. -/
def low16 (c : Word) : Word := BitVec.ofNat 64 (c.toNat % 2 ^ 16)

/-- `number == int16_t(number)`. -/
def IsInt16 (c : Word) : Prop := -2 ^ 15 ≤ c.toInt ∧ c.toInt < 2 ^ 15

instance (c : Word) : Decidable c.IsInt16 := inferInstanceAs (Decidable (_ ∧ _))

/-- The number has no bits above the lowest sixteen. -/
def Fits16 (c : Word) : Prop := c.toNat < 2 ^ 16

instance (c : Word) : Decidable c.Fits16 := inferInstanceAs (Decidable (_ < _))

theorem toNat_low16 (c : Word) : c.low16.toNat = c.toNat % 2 ^ 16 := by
  rw [low16, toNat_ofNat]
  omega

theorem low16_eq_iff {c : Word} : c.low16 = c ↔ c.Fits16 := by
  rw [← toNat_inj, toNat_low16, Fits16]
  omega

theorem low16_of_fits {c : Word} (h : c.Fits16) : c.low16 = c := low16_eq_iff.2 h

theorem toInt_low16 (c : Word) : c.low16.toInt = c.toInt % 2 ^ 16 := by
  have hlow := toNat_low16 c
  rw [toInt_eq_toNat_cond, toInt_eq_toNat_cond, hlow]
  split <;> split <;> omega

end Word

end Xzero.Flow
