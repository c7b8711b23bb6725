import Xzero.Flow.Number
import Xzero.Flow.Vm.Instruction
import Xzero.Util.Buffer

/-!
# The virtual machine's computing instructions

`xzero-flow/vm/Runner.cc`, the instructions that compute a register from registers, immediates and
the constant pool, on numbers, booleans and strings. A register is 64 bits, of which a string is the
address of its bytes; here it is a `Datum`, and an instruction that would follow a number as an
address has no result. Addresses of arrays, of IP addresses and networks, regular expressions,
calls and jumps are not part of this module.
-/

namespace Xzero.Flow.Vm

open Xzero.Util

/-- What a register holds. -/
inductive Datum
  | word (w : Word)
  | string (s : Bytes)
  deriving DecidableEq, Repr

namespace Datum

def toNumber : Datum → Option Word
  | word w => some w
  | string _ => none

/-- `toString(R)`. -/
def toStr : Datum → Option Bytes
  | word _ => none
  | string s => some s

def ofBool (b : Bool) : Datum := word (.ofBool b)

@[simp] theorem toNumber_word (w : Word) : (word w).toNumber = some w := rfl

end Datum

/-! ### The constant pool -/

/-- The numbers and strings of a `vm::ConstantPool`. -/
structure ConstantPool where
  /-- `numbers_`. -/
  numbers : List Word
  /-- `strings_`. -/
  strings : List Bytes
  deriving DecidableEq, Repr

/-- `ensureValue`: the position of a value in a table, appended where it is missing. -/
def ensureValue {α : Type} [DecidableEq α] (table : List α) (literal : α) : List α × ℕ :=
  if literal ∈ table then (table, table.idxOf literal) else (table ++ [literal], table.length)

section

variable {α : Type} [DecidableEq α] (table : List α) (literal : α)
include table literal

theorem getElem?_ensureValue :
    (ensureValue table literal).1[(ensureValue table literal).2]? = some literal := by
  by_cases h : literal ∈ table
  · simp [ensureValue, h]
  · simp [ensureValue, h]

theorem prefix_ensureValue : table <+: (ensureValue table literal).1 := by
  by_cases h : literal ∈ table
  · simp [ensureValue, h]
  · simp [ensureValue, h]

theorem ensureValue_lt : (ensureValue table literal).2 < table.length + 1 := by
  by_cases h : literal ∈ table
  · have hlt := List.idxOf_lt_length_iff.2 h
    simp only [ensureValue, h, if_true]
    omega
  · simp [ensureValue, h]

theorem length_ensureValue_le : (ensureValue table literal).1.length ≤ table.length + 1 := by
  by_cases h : literal ∈ table
  · simp [ensureValue, h]
  · simp [ensureValue, h]

end

/-! ### One instruction -/

namespace Runner

abbrev Data := ℕ → Datum

section

variable (pool : ConstantPool) (data : Data) (b c : ℕ)

/-- A numeric instruction on two registers. -/
def registers (op : NumOp) : Option Datum := do
  let x ← (data b).toNumber
  let y ← (data c).toNumber
  (op.eval x y).map .word

/-- A numeric instruction on a register and an immediate, whose sixteen bits are not a sign. -/
def immediate (op : NumOp) : Option Datum := do
  let x ← (data b).toNumber
  (op.eval x (BitVec.ofNat 64 c)).map .word

def strings (test : Bytes → Bytes → Bool) : Option Datum := do
  let x ← (data b).toStr
  let y ← (data c).toStr
  return .ofBool (test x y)

/-- A boolean instruction on two registers. -/
def booleans (op : Word → Word → Word) : Option Datum := do
  let x ← (data b).toNumber
  let y ← (data c).toNumber
  return .word (op x y)

/-- What an instruction leaves in the register of its first operand. -/
def result : Opcode → Option Datum
  | .mov => data b
  -- numerical
  | .imov => some (.word (BitVec.ofNat 64 b))
  | .nconst => pool.numbers[b]?.map .word
  | .nneg => (data b).toNumber.map fun x ↦ .word (-x)
  | .nnot => (data b).toNumber.map fun x ↦ .word (~~~x)
  | .nadd => registers data b c .add
  | .nsub => registers data b c .sub
  | .nmul => registers data b c .mul
  | .ndiv => registers data b c .div
  | .nrem => registers data b c .rem
  | .nshl => registers data b c .shl
  | .nshr => registers data b c .shr
  | .npow => registers data b c .pow
  | .nand => registers data b c .and
  | .nor => registers data b c .or
  | .nxor => registers data b c .xor
  | .ncmpz => (data b).toNumber.map fun x ↦ .ofBool (decide (x = 0))
  | .ncmpeq => registers data b c .cmpEQ
  | .ncmpne => registers data b c .cmpNE
  | .ncmple => registers data b c .cmpLE
  | .ncmpge => registers data b c .cmpGE
  | .ncmplt => registers data b c .cmpLT
  | .ncmpgt => registers data b c .cmpGT
  -- numerical (reg, imm)
  | .niadd => immediate data b c .add
  | .nisub => immediate data b c .sub
  | .nimul => immediate data b c .mul
  | .nidiv => immediate data b c .div
  | .nirem => immediate data b c .rem
  | .nishl => immediate data b c .shl
  | .nishr => immediate data b c .shr
  | .nipow => immediate data b c .pow
  | .niand => immediate data b c .and
  | .nior => immediate data b c .or
  | .nixor => immediate data b c .xor
  | .nicmpeq => immediate data b c .cmpEQ
  | .nicmpne => immediate data b c .cmpNE
  | .nicmple => immediate data b c .cmpLE
  | .nicmpge => immediate data b c .cmpGE
  | .nicmplt => immediate data b c .cmpLT
  | .nicmpgt => immediate data b c .cmpGT
  -- boolean
  | .bnot => (data b).toNumber.map fun x ↦ .ofBool (decide (x = 0))
  | .band => booleans data b c fun x y ↦ .ofBool (decide (x ≠ 0 ∧ y ≠ 0))
  | .bor => booleans data b c fun x y ↦ .ofBool (decide (x ≠ 0 ∨ y ≠ 0))
  | .bxor => booleans data b c fun x y ↦ x ^^^ y
  -- string
  | .sconst => pool.strings[b]?.map .string
  | .sadd => do return .string ((← (data b).toStr) ++ (← (data c).toStr))
  | .scmpeq => strings data b c Buffer.equals
  | .scmpne => strings data b c fun x y ↦ !Buffer.equals x y
  | .scmple => strings data b c Buffer.lessOrEqual
  | .scmpge => strings data b c Buffer.greaterOrEqual
  | .scmplt => strings data b c Buffer.less
  | .scmpgt => strings data b c Buffer.greater
  | .scmpbeg => strings data b c Buffer.beginsWith
  | .scmpend => strings data b c Buffer.endsWith
  | .scontains => strings data b c fun x y ↦ (Buffer.find y x).isSome
  | .slen => (data b).toStr.map fun s ↦ .word (BitVec.ofNat 64 s.length)
  | .sisempty => (data b).toStr.map fun s ↦ .ofBool s.isEmpty
  -- conversion
  | .s2i => (data b).toStr.map fun s ↦ .word ((Buffer.toInt s).signExtend 64)
  | .i2s => (data b).toNumber.map fun x ↦ .string (StringUtil.decimal x.toInt)
  | _ => none

end

/-- One instruction of `Runner::loop`. -/
def operate (pool : ConstantPool) (data : Data) (instr : Instruction) : Option Data :=
  (result pool data (operandB instr) (operandC instr) (opcode instr)).map
    (Function.update data (operandA instr))

def exec (pool : ConstantPool) : Data → List Instruction → Option Data
  | data, [] => some data
  | data, instr :: code => do exec pool (← operate pool data instr) code

theorem exec_append (pool : ConstantPool) (data : Data) (code code' : List Instruction) :
    exec pool data (code ++ code') = exec pool data code >>= fun data' ↦ exec pool data' code' := by
  induction code generalizing data with
  | nil => rfl
  | cons instr code ih =>
    rw [List.cons_append, exec, exec]
    rcases operate pool data instr with - | data'
    · rfl
    · exact ih data'

theorem operate_makeInstruction {pool : ConstantPool} {data : Data} {opc : Opcode} {a b c : ℕ}
    (ha : a < 2 ^ 15) :
    operate pool data (makeInstruction opc a b c) =
      (result pool data (b % 2 ^ 16) (c % 2 ^ 16) opc).map (Function.update data a) := by
  rw [operate, opcode_makeInstruction opc b c ha, operandA_makeInstruction opc b c ha,
    operandB_makeInstruction opc b c ha, operandC_makeInstruction opc b c ha]

end Runner

end Xzero.Flow.Vm
